import WasmImage.Proofs.Segments

/-!
# Sections

Ten of a module's sections hold a vector of entries. They are one family here, `VecSection`:
each member has its id, its field of the module, the decoder and the encoder of its entries and
what makes an entry well formed, and what is proved once of the family holds of all ten. The
start and data count sections, which hold one index, and the custom sections are handled apart.

Reading one section, in both directions:

* `nextSection_reads`: a section written as its id, its size and its contents is read back;
* `nextSection_partial`: reading a section keeps `Module.Partial`, the invariant of a module
  under construction: what was read so far is well formed, and the vector sections ranked after
  the last one read are still empty.
-/

namespace WasmImage.Wasm

open Reader Writer

/-- The sections that hold a vector of entries. -/
inductive VecSection
  | types | imports | funcs | tables | memories | globals | exports | elements | code | data
  deriving DecidableEq

namespace VecSection

/-- The entries of a section. -/
@[reducible] def Entry : VecSection → Type
  | types => FuncType
  | imports => Import
  | funcs => UInt32
  | tables => TableType
  | memories => Limits
  | globals => Global
  | exports => Export
  | elements => Element
  | code => Body
  | data => DataSegment

def id : VecSection → UInt8
  | types => 1
  | imports => 2
  | funcs => 3
  | tables => 4
  | memories => 5
  | globals => 6
  | exports => 7
  | elements => 9
  | code => 10
  | data => 11

/-- The section's entries in a module. -/
def get : (s : VecSection) → Module → Array s.Entry
  | types, m => m.types
  | imports, m => m.imports
  | funcs, m => m.funcs
  | tables, m => m.tables
  | memories, m => m.memories
  | globals, m => m.globals
  | exports, m => m.exports
  | elements, m => m.elements
  | code, m => m.code
  | data, m => m.data

/-- The module with the section's entries replaced. -/
def set : (s : VecSection) → Module → Array s.Entry → Module
  | types, m, xs => { m with types := xs }
  | imports, m, xs => { m with imports := xs }
  | funcs, m, xs => { m with funcs := xs }
  | tables, m, xs => { m with tables := xs }
  | memories, m, xs => { m with memories := xs }
  | globals, m, xs => { m with globals := xs }
  | exports, m, xs => { m with exports := xs }
  | elements, m, xs => { m with elements := xs }
  | code, m, xs => { m with code := xs }
  | data, m, xs => { m with data := xs }

/-- The decoder of one entry. -/
def entry : (s : VecSection) → Decode.Step s.Entry
  | types => Decode.funcType
  | imports => Decode.importEntry
  | funcs => Decode.rd Leb128.readU32
  | tables => Decode.tableType
  | memories => Decode.limits
  | globals => Decode.global
  | exports => Decode.exportEntry
  | elements => Decode.element
  | code => Decode.body
  | data => Decode.dataSegment

/-- The encoder of one entry. -/
def write : (s : VecSection) → ByteArray → s.Entry → ByteArray
  | types => Encode.funcType
  | imports => Encode.importEntry
  | funcs => u32
  | tables => Encode.tableType
  | memories => Encode.limits
  | globals => Encode.global
  | exports => Encode.exportEntry
  | elements => Encode.element
  | code => Encode.body
  | data => Encode.dataSegment

/-- A well-formed entry. -/
def WF : (s : VecSection) → s.Entry → Prop
  | types => FuncType.WF
  | imports => Import.WF
  | funcs => fun _ => True
  | tables => TableType.WF
  | memories => Limits.WF
  | globals => Global.WF
  | exports => fun e => NameFits e.name
  | elements => Element.WF
  | code => Body.WF
  | data => DataSegment.WF

/-- Where the section stands in the canonical order. -/
def rank (s : VecSection) : Nat := Decode.sectionRank s.id

/-- The vector section that an id names. -/
def ofId? : UInt8 → Option VecSection
  | 1 => some types
  | 2 => some imports
  | 3 => some funcs
  | 4 => some tables
  | 5 => some memories
  | 6 => some globals
  | 7 => some exports
  | 9 => some elements
  | 10 => some code
  | 11 => some data
  | _ => none

theorem id_of_ofId? {id : UInt8} {s : VecSection} (h : ofId? id = some s) : s.id = id := by
  unfold ofId? at h
  split at h <;> first | (cases h; rfl) | cases h

/-- The ranked ids that name no vector section are those of the start and data count sections. -/
theorem index_of_ofId?_eq_none {id : UInt8} (h : ofId? id = none) (hrank : Decode.sectionRank id ≠ 0) :
    id = 8 ∨ id = 12 := by
  unfold Decode.sectionRank at hrank
  split at hrank <;> simp_all [ofId?]

theorem rank_pos (s : VecSection) : 0 < s.rank := by
  cases s <;> decide

@[simp] theorem get_set (s : VecSection) (m : Module) (xs : Array s.Entry) :
    s.get (s.set m xs) = xs := by
  cases s <;> rfl

theorem get_set_of_ne {s t : VecSection} (h : s ≠ t) (m : Module) (xs : Array s.Entry) :
    t.get (s.set m xs) = t.get m := by
  cases s <;> cases t <;> first | rfl | exact absurd rfl h

@[simp] theorem set_get (s : VecSection) (m : Module) : s.set m (s.get m) = m := by
  cases s <;> rfl

@[simp] theorem set_customs (s : VecSection) (m : Module) (xs : Array s.Entry) :
    (s.set m xs).customs = m.customs := by
  cases s <;> rfl

@[simp] theorem set_start (s : VecSection) (m : Module) (xs : Array s.Entry) :
    (s.set m xs).start = m.start := by
  cases s <;> rfl

@[simp] theorem set_dataCount (s : VecSection) (m : Module) (xs : Array s.Entry) :
    (s.set m xs).dataCount = m.dataCount := by
  cases s <;> rfl

/-- The contents of a vector section: a vector of its entries, added to those the module has. -/
theorem sectionContents_id (s : VecSection) (m : Module) :
    Decode.sectionContents s.id m =
      Decode.vector s.entry >>= fun xs => pure (s.set m (s.get m ++ xs)) := by
  cases s <;> rfl

theorem appends_write : ∀ s : VecSection, Appends s.write
  | types => Encode.appends_funcType
  | imports => Encode.appends_importEntry
  | funcs => appends_u32
  | tables => Encode.appends_tableType
  | memories => Encode.appends_limits
  | globals => Encode.appends_global
  | exports => Encode.appends_exportEntry
  | elements => Encode.appends_element
  | code => Encode.appends_body
  | data => Encode.appends_dataSegment

theorem entry_reads : ∀ (s : VecSection) (x : s.Entry), s.WF x → Reads s.entry (written s.write x) x
  | types, t, h => Decode.funcType_reads t h
  | imports, i, h => Decode.importEntry_reads i h
  | funcs, v, _ => (Decode.rd_u32_reads v).congr (by simp only [write, written_u32]) rfl
  | tables, t, h => Decode.tableType_reads t h
  | memories, l, h => Decode.limits_reads l h
  | globals, g, h => Decode.global_reads g h
  | exports, e, h => Decode.exportEntry_reads e h
  | elements, e, h => Decode.element_reads e h
  | code, b, h => Decode.body_reads b h
  | data, d, h => Decode.dataSegment_reads d h

theorem entry_sound :
    ∀ s : VecSection, Sound s.entry fun x l => s.WF x ∧ (written s.write x).length ≤ l.length
  | types => Decode.funcType_sound
  | imports => Decode.importEntry_sound
  | funcs => Decode.rd_u32_sound.mono fun v l h => ⟨trivial, by simpa only [write, written_u32] using h⟩
  | tables => Decode.tableType_sound
  | memories => Decode.limits_sound
  | globals => Decode.global_sound
  | exports => Decode.exportEntry_sound
  | elements => Decode.element_sound
  | code => Decode.body_sound
  | data => Decode.dataSegment_sound

end VecSection

/-! ## Reading one section -/

namespace Decode

variable {α : Type}

/-- What follows a section's id: its size, its bytes, and its contents read from those bytes
alone, which a section other than a custom one must use up. -/
def sectionBody (id : UInt8) (m : Module) (rank : Nat) : Step (Module × Nat) := do
  let size ← placed .sectionSize (rd Leb128.readU32)
  let data ← placed .sectionData (rd (bytes size.toNat))
  let (res, sub) := (sectionContents id m).run data
  match res with
  | .error e => throw (.at (.inSection id) sub.pos e)
  | .ok m' =>
    if id != 0 && sub.remaining != 0 then
      throw (.at (.inSection id) sub.pos .sizeMismatch)
    return (m', rank)

/-- A section is its id, checked against the rank of the last one, then its body. -/
theorem nextSection_eq (m : Module) (last : Nat) :
    nextSection m last = placed .sectionHeader (rd byte) >>= fun id =>
      if id = 0 then sectionBody id m last
      else if sectionRank id = 0 then throw (.unknownSection id)
      else if sectionRank id ≤ last then throw (.outOfOrder id)
      else sectionBody id m (sectionRank id) := by
  unfold nextSection
  congr 1
  funext id
  -- each branch of the join points is the body, or a throw that drops what follows it
  by_cases hid : id = 0
  · simp only [hid, bne_self_eq_false, Bool.false_eq_true, if_false, if_true]
    rfl
  · by_cases h0 : sectionRank id = 0
    · simp only [hid, h0, bne_iff_ne, ne_eq, not_false_eq_true, if_true, if_false]
      rfl
    · by_cases hle : sectionRank id ≤ last
      · simp only [hid, h0, hle, bne_iff_ne, ne_eq, not_false_eq_true, if_true, if_false]
        rfl
      · simp only [hid, h0, hle, bne_iff_ne, ne_eq, not_false_eq_true, if_true, if_false]
        rfl

theorem placed_reads {step : Step α} {l : List UInt8} {a : α} (p : Place) (h : Reads step l a) :
    Reads (placed p step) l a :=
  h.tryCatch _

theorem placed_sound {step : Step α} {P : α → List UInt8 → Prop} (p : Place) (h : Sound step P) :
    Sound (placed p step) P :=
  h.tryCatch fun _ => fails_bind fun _ => fails_throw _

theorem sectionBody_reads {id : UInt8} {m m' : Module} {rank : Nat} {contents : List UInt8}
    (hsize : contents.length < 2 ^ 32) (hc : ReadsAll (sectionContents id m) contents m') :
    Reads (sectionBody id m rank) (Leb128.unsigned contents.length ++ contents) (m', rank) := by
  have hlen : contents.length.toUInt32.toNat = contents.length := toNat_toUInt32_of_lt hsize
  have hrun : (sectionContents id m).run contents.toByteArray =
      (.ok m', (Cursor.ofBytes contents.toByteArray).skip contents.length) :=
    hc _ (Nat.zero_le _) (by simp)
  have hend : ((Cursor.ofBytes contents.toByteArray).skip contents.length).remaining = 0 := by
    simp [Cursor.remaining, Cursor.ofBytes]
  unfold sectionBody
  rw [← hlen]
  refine (placed_reads _ (rd_u32_reads _)).bind ((placed_reads _ (rd_bytes_reads hlen)).bind_last ?_)
  simp only [hrun, hend, bne_self_eq_false, Bool.and_false, Bool.false_eq_true, if_false]
  exact reads_pure _

/-- A section of a ranked id, read after sections of lower rank. -/
theorem nextSection_reads_ranked {m m' : Module} {last : Nat} {id : UInt8} {contents : List UInt8}
    (hlast : last < sectionRank id) (hsize : contents.length < 2 ^ 32)
    (hc : ReadsAll (sectionContents id m) contents m') :
    Reads (nextSection m last) (id :: (Leb128.unsigned contents.length ++ contents))
      (m', sectionRank id) := by
  have hid : id ≠ 0 := by
    rintro rfl
    exact absurd hlast (Nat.not_lt_zero _)
  rw [nextSection_eq]
  refine (placed_reads _ (rd_byte_reads id)).bind ?_
  simp only [hid, if_false, Nat.ne_zero_of_lt hlast, Nat.not_le.mpr hlast]
  exact sectionBody_reads hsize hc

/-- A custom section, read wherever it stands. -/
theorem nextSection_reads_custom {m m' : Module} {last : Nat} {contents : List UInt8}
    (hsize : contents.length < 2 ^ 32) (hc : ReadsAll (sectionContents 0 m) contents m') :
    Reads (nextSection m last) (0 :: (Leb128.unsigned contents.length ++ contents)) (m', last) := by
  rw [nextSection_eq]
  refine (placed_reads _ (rd_byte_reads 0)).bind ?_
  simp only [if_true]
  exact sectionBody_reads hsize hc

/-- What a section body that is read gives: the contents read from the section's bytes, which
fewer than 2^32 bytes hold. -/
theorem sectionBody_sound {id : UInt8} {m : Module} {rank : Nat} {P : Module → Prop}
    (h : ∀ data m' c, data.size < 2 ^ 32 → (sectionContents id m).run data = (.ok m', c) → P m') :
    Sound (sectionBody id m rank) fun p _ => P p.1 ∧ p.2 = rank := by
  unfold sectionBody
  refine Sound.bind (placed_sound _ rd_u32_sound) fun size _ _ =>
    Sound.bind (placed_sound _ (rd_bytes_sound _)) fun data l ⟨hl, hlen⟩ => ?_
  have hsize : data.size < 2 ^ 32 := by
    have : data.size = size.toNat := by
      rw [← hlen, hl, Array.length_toList, ByteArray.size_data]
    exact this ▸ size.toNat_lt
  rcases hr : (sectionContents id m).run data with ⟨_ | m', c⟩
  · exact sound_throw
  · exact Sound.ite (fun _ => sound_throw) fun _ => sound_pure ⟨h data m' c hsize hr, rfl⟩

/-! ## Reading sections one after another -/

/-- `Steps m last l m' r`: from the module `m`, the last section read being of rank `last`, the
bytes `l` are read as whole sections, one after another, and give `m'` with last rank `r`. -/
inductive Steps : Module → Nat → List UInt8 → Module → Nat → Prop
  | done (m : Module) (last : Nat) : Steps m last [] m last
  | next {m m₁ m' : Module} {last r₁ r : Nat} {b : UInt8} {l rest : List UInt8} :
      Reads (nextSection m last) (b :: l) (m₁, r₁) → Steps m₁ r₁ rest m' r →
        Steps m last ((b :: l) ++ rest) m' r

theorem Steps.single {m m' : Module} {last r : Nat} {b : UInt8} {l : List UInt8}
    (h : Reads (nextSection m last) (b :: l) (m', r)) : Steps m last (b :: l) m' r := by
  simpa using Steps.next h (.done m' r)

theorem Steps.append {m m₁ m₂ : Module} {last r₁ r₂ : Nat} {l₁ l₂ : List UInt8}
    (h₁ : Steps m last l₁ m₁ r₁) (h₂ : Steps m₁ r₁ l₂ m₂ r₂) : Steps m last (l₁ ++ l₂) m₂ r₂ := by
  induction h₁ with
  | done => exact h₂
  | next hr _ ih =>
    rw [List.append_assoc]
    exact .next hr (ih h₂)

/-- Sections that read one after another are what `sectionsFrom` reads, given as much fuel as
there are bytes. -/
theorem Steps.readsAll {m m' : Module} {last r : Nat} {l : List UInt8} (h : Steps m last l m' r) :
    ∀ fuel, l.length ≤ fuel → ReadsAll (sectionsFrom fuel m last) l m' := by
  induction h with
  | done m last =>
    intro fuel _
    cases fuel with
    | zero => exact (reads_pure m).readsAll
    | succ fuel =>
      unfold sectionsFrom
      exact ReadsAll.remaining_bind (by simpa using (reads_pure m).readsAll)
  | next hr _ ih =>
    intro fuel hlen
    -- every section has at least its id byte, so there is fuel for one more
    obtain ⟨fuel, rfl⟩ : ∃ f, fuel = f + 1 := ⟨fuel - 1, by simp at hlen; omega⟩
    unfold sectionsFrom
    refine ReadsAll.remaining_bind ?_
    rw [if_neg (by simp)]
    exact ReadsAll.bind hr (ih fuel (by simp at hlen; omega))

end Decode

/-! ## Well-formed sections -/

/-- A vector that reads back: its entries are well formed, and its count and its encoded size
are held by 32 bits. -/
structure VectorWF {α : Type} (P : α → Prop) (w : ByteArray → α → ByteArray) (xs : Array α) :
    Prop where
  entries : ∀ x ∈ xs, P x
  count : xs.size < 2 ^ 32
  size : (Encode.vector ByteArray.empty xs w).size < 2 ^ 32

theorem vectorWF_empty {α : Type} (P : α → Prop) (w : ByteArray → α → ByteArray) :
    VectorWF P w #[] where
  entries := by simp
  count := by simp
  size := by
    have h : (Encode.vector ByteArray.empty (#[] : Array α) w).data.toList = Leb128.unsigned 0 := by
      simp [Encode.vector]
    rw [← ByteArray.size_data, ← Array.length_toList, h, Leb128.unsigned_of_lt (by decide)]
    decide

/-- A custom section whose name, and whose whole contents, a 32-bit size can count. -/
structure CustomSection.WF (c : CustomSection) : Prop where
  name : NameFits c.name
  size : (Writer.name ByteArray.empty c.name ++ c.data).size < 2 ^ 32

/-- The sections of a module, each of which reads back. -/
structure Module.SectionsWF (m : Module) : Prop where
  vectors : ∀ s : VecSection, VectorWF s.WF s.write (s.get m)
  customs : ∀ c ∈ m.customs, c.WF

/-- The invariant of a module under construction, the last section read being of rank `last`:
its sections read back, and the vector sections ranked after `last` are still empty. -/
structure Module.Partial (m : Module) (last : Nat) : Prop extends m.SectionsWF where
  fresh : ∀ s : VecSection, last < s.rank → s.get m = #[]

namespace VecSection

@[simp] theorem get_with_customs (s : VecSection) (m : Module) (cs : Array CustomSection) :
    s.get { m with customs := cs } = s.get m := by
  cases s <;> rfl

@[simp] theorem get_with_start (s : VecSection) (m : Module) (v : Option UInt32) :
    s.get { m with start := v } = s.get m := by
  cases s <;> rfl

@[simp] theorem get_with_dataCount (s : VecSection) (m : Module) (v : Option UInt32) :
    s.get { m with dataCount := v } = s.get m := by
  cases s <;> rfl

end VecSection

namespace Decode

/-- The contents of a vector section, read from fewer than 2^32 bytes: a vector that reads back,
added to the section's entries. -/
theorem vector_contents {s : VecSection} {m m' : Module} {data : ByteArray} {c : Cursor}
    (hsize : data.size < 2 ^ 32) (hr : (sectionContents s.id m).run data = (.ok m', c)) :
    ∃ xs, m' = s.set m (s.get m ++ xs) ∧ VectorWF s.WF s.write xs := by
  rw [VecSection.sectionContents_id] at hr
  have hsound : Sound (vector s.entry >>= fun xs => pure (s.set m (s.get m ++ xs))) fun m' l =>
      ∃ xs, m' = s.set m (s.get m ++ xs) ∧ (∀ x ∈ xs, s.WF x) ∧ xs.size < 2 ^ 32 ∧
        (Encode.vector ByteArray.empty xs s.write).data.toList.length ≤ l.length :=
    Sound.bind (vector_sound s.appends_write s.entry_sound) fun xs _ ⟨hwf, hcount, hlen⟩ =>
      sound_pure ⟨xs, rfl, hwf, hcount, by simpa using hlen⟩
  obtain ⟨l, hl, xs, rfl, hwf, hcount, hlen⟩ := hsound.of_run hr
  refine ⟨xs, rfl, hwf, hcount, ?_⟩
  simp only [Array.length_toList, ByteArray.size_data] at hlen
  omega

/-- The contents of a custom section, read from fewer than 2^32 bytes: one custom section that
reads back, added after the others. -/
theorem custom_contents {m m' : Module} {data : ByteArray} {c : Cursor}
    (hsize : data.size < 2 ^ 32) (hr : (sectionContents 0 m).run data = (.ok m', c)) :
    ∃ cs : CustomSection, m' = { m with customs := m.customs.push cs } ∧ cs.WF := by
  have hsound : SoundAll (sectionContents 0 m) fun m' l => ∃ cs : CustomSection,
      m' = { m with customs := m.customs.push cs } ∧ NameFits cs.name ∧
        (written Writer.name cs.name).length + cs.data.size ≤ l.length := by
    refine Sound.bindAll name_sound fun n l₁ ⟨hn, hl₁⟩ => ?_
    rw [bind_pure_comp]
    refine SoundAll.map _ (rest_soundAll.mono fun d l₂ hl₂ => ⟨_, rfl, hn, ?_⟩)
    simp only [hl₂, List.length_append, Array.length_toList, ByteArray.size_data]
    omega
  obtain ⟨cs, rfl, hn, hlen⟩ := hsound.of_run hr
  refine ⟨cs, rfl, hn, ?_⟩
  have hname : (written Writer.name cs.name).length = (Writer.name ByteArray.empty cs.name).size := by
    simp only [written, Array.length_toList, ByteArray.size_data]
  simp only [Array.length_toList, ByteArray.size_data] at hlen
  rw [ByteArray.size_append]
  omega

/-- The start and data count sections hold one index: reading one changes no vector section and
no custom section. -/
theorem index_contents {id : UInt8} {m m' : Module} {data : ByteArray} {c : Cursor}
    (hid : id = 8 ∨ id = 12) (hr : (sectionContents id m).run data = (.ok m', c)) :
    (∀ s : VecSection, s.get m' = s.get m) ∧ m'.customs = m.customs := by
  have hsound : Sound (sectionContents id m) fun m' _ =>
      (∀ s : VecSection, s.get m' = s.get m) ∧ m'.customs = m.customs := by
    rcases hid with rfl | rfl
    · exact Sound.bind rd_u32_sound fun _ _ _ => sound_pure ⟨fun s => by simp, rfl⟩
    · exact Sound.bind rd_u32_sound fun _ _ _ => sound_pure ⟨fun s => by simp, rfl⟩
  obtain ⟨_, _, h⟩ := hsound.of_run hr
  exact h

end Decode

namespace Module.Partial

open Decode

/-- A custom section keeps the invariant, at the same rank. -/
theorem custom {m m' : Module} {last : Nat} {data : ByteArray} {c : Cursor} (hp : m.Partial last)
    (hsize : data.size < 2 ^ 32) (hr : (sectionContents 0 m).run data = (.ok m', c)) :
    m'.Partial last := by
  obtain ⟨cs, rfl, hcs⟩ := custom_contents hsize hr
  refine ⟨⟨fun s => ?_, fun c hc => ?_⟩, fun s hs => ?_⟩
  · simpa using hp.vectors s
  · rcases Array.mem_push.mp hc with hc | rfl
    · exact hp.customs c hc
    · exact hcs
  · simpa using hp.fresh s hs

/-- A section ranked after the last one keeps the invariant, at its own rank: a vector section
was still empty, and is now the vector read. -/
theorem ranked {m m' : Module} {last : Nat} {id : UInt8} {data : ByteArray} {c : Cursor}
    (hp : m.Partial last) (hlast : last < sectionRank id) (hsize : data.size < 2 ^ 32)
    (hr : (sectionContents id m).run data = (.ok m', c)) : m'.Partial (sectionRank id) := by
  rcases hs : VecSection.ofId? id with _ | s
  · obtain ⟨hget, hcustoms⟩ :=
      index_contents (VecSection.index_of_ofId?_eq_none hs (Nat.ne_zero_of_lt hlast)) hr
    refine ⟨⟨fun t => hget t ▸ hp.vectors t, fun c hc => hp.customs c (hcustoms ▸ hc)⟩,
      fun t ht => ?_⟩
    rw [hget]
    exact hp.fresh t (Nat.lt_trans hlast ht)
  · obtain rfl := VecSection.id_of_ofId? hs
    obtain ⟨xs, rfl, hxs⟩ := vector_contents hsize hr
    have hempty : s.get m = #[] := hp.fresh s hlast
    refine ⟨⟨fun t => ?_, by simpa using hp.customs⟩, fun t ht => ?_⟩
    · by_cases hst : s = t
      · subst hst
        simpa [hempty] using hxs
      · rw [VecSection.get_set_of_ne hst]
        exact hp.vectors t
    · have hst : s ≠ t := by
        rintro rfl
        exact Nat.lt_irrefl _ ht
      rw [VecSection.get_set_of_ne hst]
      exact hp.fresh t (Nat.lt_trans hlast ht)

end Module.Partial

namespace Decode

/-- Reading a section keeps the invariant, at the rank it returns. -/
theorem nextSection_partial {m : Module} {last : Nat} (hp : m.Partial last) :
    Sound (nextSection m last) fun p _ => p.1.Partial p.2 := by
  rw [nextSection_eq]
  refine Sound.bind (placed_sound _ rd_byte_sound) fun id _ _ => ?_
  by_cases hid : id = 0
  · rw [if_pos hid]
    subst hid
    refine (sectionBody_sound fun _ _ _ hsize hr => hp.custom hsize hr).mono ?_
    rintro ⟨m', r⟩ _ ⟨h, rfl⟩
    exact h
  · rw [if_neg hid]
    refine Sound.ite (fun _ => sound_throw) fun h0 => Sound.ite (fun _ => sound_throw) fun hle => ?_
    refine (sectionBody_sound fun _ _ _ hsize hr => hp.ranked (by omega) hsize hr).mono ?_
    rintro ⟨m', r⟩ _ ⟨h, rfl⟩
    exact h

/-- Every module that the sections read gives has sections that read back. -/
theorem sectionsFrom_sound : ∀ (fuel : Nat) {m : Module} {last : Nat}, m.Partial last →
    Sound (sectionsFrom fuel m last) fun m' _ => m'.SectionsWF
  | 0, _, _, hp => sound_pure hp.toSectionsWF
  | fuel + 1, _, _, hp => by
    unfold sectionsFrom
    refine Sound.bind remaining_sound fun _ _ _ =>
      Sound.ite (fun _ => sound_pure hp.toSectionsWF) fun _ => ?_
    exact Sound.bind (nextSection_partial hp) fun _ _ hp' => sectionsFrom_sound fuel hp'

end Decode

end WasmImage.Wasm
