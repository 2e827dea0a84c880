import WasmImage.Wasm.Decode
import WasmImage.Proofs.Leb128
import WasmImage.Proofs.Writing

/-!
# Entries that read back

What makes each kind of entry of a module well formed, and the two halves of its round trip:

* `X_reads`: a well-formed entry is read back from what the encoder writes for it, whatever
  follows;
* `X_sound`: every entry the decoder accepts is well formed, and the encoder writes it in no more
  bytes than were read.

The second half is what keeps sizes in range: a section or body that was read with a 32-bit size
is written back within the same size.
-/

namespace WasmImage.Wasm

open Reader Writer Encode

/-! ## Well-formed entries -/

/-- A string whose UTF-8 bytes a 32-bit length can count. -/
def NameFits (s : String) : Prop := s.toUTF8.size < 2 ^ 32

/-- Limits the decoder accepts: within 32 bits unless the memory has 64-bit addresses, and the
minimum not past the maximum. -/
structure Limits.WF (l : Limits) : Prop where
  fits : l.memory64 = false → l.min ≤ 0xffffffff ∧ ∀ hi ∈ l.max, hi ≤ 0xffffffff
  ordered : ∀ hi ∈ l.max, l.min ≤ hi

/-- A function type whose parameter and result counts fit 32 bits. -/
structure FuncType.WF (t : FuncType) : Prop where
  params : t.params.length < 2 ^ 32
  results : t.results.length < 2 ^ 32

/-- A table of references to functions or to host values, with well-formed limits. -/
structure TableType.WF (t : TableType) : Prop where
  elemType : t.elemType = .funcref ∨ t.elemType = .externref
  limits : t.limits.WF

def ImportDesc.WF : ImportDesc → Prop
  | .table t => t.WF
  | .memory l => l.WF
  | _ => True

structure Import.WF (i : Import) : Prop where
  module : NameFits i.module
  name : NameFits i.name
  desc : i.desc.WF

namespace Decode

variable {α : Type}

/-! ## Primitive reads -/

theorem rd_byte_reads (b : UInt8) : Reads (rd byte) [b] b := (byte_reads b).lift _

theorem rd_byte_sound : Sound (rd byte) fun b l => l = [b] := byte_sound.lift _

theorem rd_u32_reads (v : UInt32) : Reads (rd Leb128.readU32) (Leb128.unsigned v.toNat) v :=
  (Leb128.readU32_reads v).lift _

theorem rd_u32_sound :
    Sound (rd Leb128.readU32) fun v l => (Leb128.unsigned v.toNat).length ≤ l.length :=
  (Leb128.readU32_sound.mono fun _ _ h => h.2).lift _

theorem rd_u64_reads (v : UInt64) : Reads (rd Leb128.readU64) (Leb128.unsigned v.toNat) v :=
  (Leb128.readU64_reads v).lift _

theorem rd_u64_sound :
    Sound (rd Leb128.readU64) fun v l => (Leb128.unsigned v.toNat).length ≤ l.length :=
  (Leb128.readU64_sound.mono fun _ _ h => h.2).lift _

theorem rd_bytes_reads {n : Nat} {l : List UInt8} (h : n = l.length) :
    Reads (rd (bytes n)) l l.toByteArray :=
  h ▸ (bytes_reads l).lift _

/-- A read that starts with one byte. -/
theorem rd_byte_bind {f : UInt8 → Step α} {b : UInt8} {l : List UInt8} {a : α}
    (h : Reads (f b) l a) : Reads (rd byte >>= f) (b :: l) a :=
  (rd_byte_reads b).bind h

theorem rd_bytes_sound (n : Nat) :
    Sound (rd (bytes n)) fun x l => l = x.data.toList ∧ l.length = n :=
  (bytes_sound n).lift _

/-! ## Names -/

theorem fromUTF8?_toUTF8 (s : String) : String.fromUTF8? s.toUTF8 = some s := by
  simp only [String.fromUTF8?, String.toUTF8_eq_toByteArray, dif_pos s.isValidUTF8]
  rfl

theorem toUTF8_of_fromUTF8? {b : ByteArray} {s : String} (h : String.fromUTF8? b = some s) :
    s.toUTF8 = b := by
  unfold String.fromUTF8? at h
  split at h
  · cases h
    rfl
  · cases h

theorem name_reads (s : String) (h : NameFits s) : Reads name (written Writer.name s) s := by
  have hn : s.toUTF8.size.toUInt32.toNat = s.toUTF8.data.toList.length := by
    rw [toNat_toUInt32_of_lt h]
    simp
  unfold name
  simp only [written, name_data, ByteArray.data_empty, Array.toList_empty, List.nil_append]
  refine (rd_u32_reads _).bind ((rd_bytes_reads hn).bind_last ?_)
  simp only [Cursor.toByteArray_data_toList, fromUTF8?_toUTF8]
  exact reads_pure s

theorem name_sound :
    Sound name fun s l => NameFits s ∧ (written Writer.name s).length ≤ l.length := by
  unfold name
  refine Sound.bind rd_u32_sound fun n l₁ hn => Sound.bind (rd_bytes_sound _) fun b l₂ hb => ?_
  obtain ⟨rfl, hlen⟩ := hb
  split
  · rename_i s hs
    have hsize : s.toUTF8.size = n.toNat := by
      rw [toUTF8_of_fromUTF8? hs, ← hlen]
      simp
    refine sound_pure ⟨?_, ?_⟩
    · rw [NameFits, hsize]
      exact n.toNat_lt
    · simp only [written, name_data, ByteArray.data_empty, Array.toList_empty, List.nil_append,
        List.length_append, List.append_nil, toUTF8_of_fromUTF8? hs]
      rw [← toUTF8_of_fromUTF8? hs, hsize, Nat.toUInt32_eq, UInt32.ofNat_toNat]
      omega
  · exact (fails_bind fun _ => fails_throw _).sound

/-! ## Value types -/

theorem valTypes_reads (ts : List ValType) (h : ts.length < 2 ^ 32) :
    Reads valTypes (written Encode.valTypes ts) ts := by
  have hn : ts.length.toUInt32.toNat = (ts.map (·.byte)).length := by
    rw [toNat_toUInt32_of_lt h, List.length_map]
  unfold valTypes
  simp only [written, valTypes_data, ByteArray.data_empty, Array.toList_empty, List.nil_append]
  refine (rd_u32_reads _).bind (reads_remaining_bind fun r hr => ?_)
  have hle : ¬ ts.length.toUInt32.toNat > r := by
    rw [hn]
    exact Nat.not_lt.mpr hr
  simp only [hle, if_false]
  refine (rd_bytes_reads hn).bind_last ?_
  simp only [toList_eq, List.data_toByteArray, List.toList_toArray, List.map_map]
  exact (reads_pure _).congr rfl (by simp [Function.comp_def])

/-! ## Limits and the types built on them -/

theorem limits_reads (l : Limits) (h : l.WF) : Reads limits (written Encode.limits l) l := by
  obtain ⟨min, max, shared, memory64⟩ := l
  obtain ⟨hfits, hord⟩ := h
  unfold limits
  simp only [written, limits_data, ByteArray.data_empty, Array.toList_empty, List.nil_append]
  refine rd_byte_bind ((rd_u64_reads min).bind ?_)
  simp only [limitsFlags_max, limitsFlags_shared, limitsFlags_memory64]
  have hcheck : (!memory64 && (decide (min > 4294967295) ||
      max.any fun x => decide (x > 4294967295))) = false := by
    cases memory64 with
    | true => rfl
    | false =>
      obtain ⟨hmin, hmax⟩ := hfits rfl
      cases max with
      | none => simpa using hmin
      | some hi => simpa [hmin] using hmax hi rfl
  cases max with
  | none =>
    simp only [Option.isSome_none, Bool.false_eq_true, if_false, pure_bind, hcheck,
      Option.map_none, Option.getD_none]
    exact reads_pure _
  | some hi =>
    have hle : ¬ min > hi := Std.not_lt.mpr (hord hi rfl)
    simp only [Option.isSome_some, if_true, Option.map_some, Option.getD_some]
    refine ((rd_u64_reads hi).map some).bind_last ?_
    simp only [hcheck, Bool.false_eq_true, if_false, hle]
    exact reads_pure _

theorem limits_sound :
    Sound limits fun l bs => l.WF ∧ (written Encode.limits l).length ≤ bs.length := by
  unfold limits
  refine Sound.bind rd_byte_sound fun flags l₁ h₁ => Sound.bind rd_u64_sound fun min l₂ h₂ => ?_
  subst h₁
  have hmax : Sound (some <$> rd Leb128.readU64) fun mx l =>
      ∀ hi ∈ mx, (Leb128.unsigned hi.toNat).length ≤ l.length :=
    Sound.map some (rd_u64_sound.mono fun hi l h => by simpa using h)
  have hnone : Sound (pure none : Step (Option UInt64)) fun mx l =>
      ∀ hi ∈ mx, (Leb128.unsigned hi.toNat).length ≤ l.length :=
    sound_pure (by simp)
  dsimp only
  rw [ite_bind_same]
  refine Sound.bind (Sound.ite (fun _ => hmax) fun _ => hnone) fun max l₃ h₃ => ?_
  split
  · exact ((fails_throw _).bind _).sound
  · rename_i hcheck
    have hfits : (flags &&& 4 != 0) = false →
        min ≤ 0xffffffff ∧ ∀ hi ∈ max, hi ≤ 0xffffffff := by
      intro hm
      simp only [hm, Bool.not_false, Bool.true_and, Bool.or_eq_true, decide_eq_true_eq,
        not_or] at hcheck
      refine ⟨Std.not_lt.mp hcheck.1, fun hi hhi => ?_⟩
      rw [Option.mem_def] at hhi
      subst hhi
      simpa using hcheck.2
    -- both ways to succeed end with the same limits, minimum not past the maximum
    have hdone : (∀ hi ∈ max, min ≤ hi) →
        Sound (pure ⟨min, max, flags &&& 2 != 0, flags &&& 4 != 0⟩ : Step Limits) fun b l₄ =>
          b.WF ∧ (written Encode.limits b).length ≤ ([flags] ++ (l₂ ++ (l₃ ++ l₄))).length := by
      intro hord
      refine sound_pure ⟨⟨hfits, hord⟩, ?_⟩
      cases max with
      | none => simp [written]; omega
      | some hi => have := h₃ hi rfl; simp [written]; omega
    cases max with
    | none => exact hdone (by simp)
    | some hi =>
      dsimp only
      split
      · exact ((fails_throw _).bind _).sound
      · rename_i hle
        exact hdone fun hi' hhi => by
          rw [Option.mem_def, Option.some.injEq] at hhi
          subst hhi
          exact Std.not_lt.mp hle

theorem tableType_reads (t : TableType) (h : t.WF) :
    Reads tableType (written Encode.tableType t) t := by
  have hb : ¬ (t.elemType.byte != 112 && t.elemType.byte != 111) = true := by
    rcases h.elemType with h' | h' <;> rw [h'] <;> decide
  unfold tableType
  simp only [written, tableType_data, ByteArray.data_empty, Array.toList_empty, List.nil_append]
  refine rd_byte_bind ?_
  simp only [hb]
  exact (limits_reads _ h.limits).bind_last (reads_pure _)

theorem tableType_sound :
    Sound tableType fun t l => t.WF ∧ (written Encode.tableType t).length ≤ l.length := by
  unfold tableType
  refine Sound.bind rd_byte_sound fun b l₁ h₁ => ?_
  subst h₁
  split
  · exact ((fails_throw _).bind _).sound
  · rename_i hb
    refine Sound.bind limits_sound fun lim l₂ ⟨hwf, hlen⟩ => sound_pure ⟨⟨?_, hwf⟩, ?_⟩
    · simp only [bne_iff_ne, ne_eq, Bool.and_eq_true, not_and_or, Decidable.not_not] at hb
      rcases hb with rfl | rfl
      · exact .inl rfl
      · exact .inr rfl
    · simp only [written, tableType_data] at hlen ⊢
      simp only [ByteArray.data_empty, Array.toList_empty, List.nil_append, List.length_cons,
        List.length_append, List.append_nil]
      omega

theorem globalType_reads (g : GlobalType) : Reads globalType (written Encode.globalType g) g := by
  unfold globalType
  simp only [written, globalType_data, ByteArray.data_empty, Array.toList_empty, List.nil_append]
  refine rd_byte_bind (rd_byte_bind ((reads_pure _).congr rfl ?_))
  obtain ⟨t, m⟩ := g
  cases m <;> rfl

theorem globalType_sound :
    Sound globalType fun g l => (written Encode.globalType g).length ≤ l.length := by
  unfold globalType
  refine Sound.bind rd_byte_sound fun t l₁ h₁ => Sound.bind rd_byte_sound fun m l₂ h₂ => ?_
  subst h₁ h₂
  exact sound_pure (by simp [written])

theorem valTypes_sound :
    Sound valTypes fun ts l => ts.length < 2 ^ 32 ∧ (written Encode.valTypes ts).length ≤ l.length := by
  unfold valTypes
  refine Sound.bind rd_u32_sound fun n l₁ h₁ => Sound.bind remaining_sound fun r l₂ h₂ => ?_
  subst h₂
  split
  · exact ((fails_throw _).bind _).sound
  · refine Sound.bind (rd_bytes_sound _) fun bs l₃ ⟨hbs, hlen⟩ => sound_pure ⟨?_, ?_⟩
    · simp only [List.length_map, toList_eq, Array.length_toList, ByteArray.size_data]
      rw [← ByteArray.size_data, ← Array.length_toList, ← hbs, hlen]
      exact n.toNat_lt
    · have hsize : (bs.toList.map ValType.mk).length = n.toNat := by
        rw [List.length_map, toList_eq, ← hbs, hlen]
      have hcount : (bs.toList.map ValType.mk).length.toUInt32 = n := by
        rw [hsize, Nat.toUInt32_eq, UInt32.ofNat_toNat]
      rw [written, valTypes_data, hcount]
      simp only [ByteArray.data_empty, Array.toList_empty, List.nil_append, List.length_append,
        List.length_map, List.append_nil]
      rw [toList_eq, ← hbs]
      omega

theorem funcType_reads (t : FuncType) (h : t.WF) : Reads funcType (written Encode.funcType t) t := by
  unfold funcType
  simp only [written, funcType_data, ByteArray.data_empty, Array.toList_empty, List.nil_append]
  refine rd_byte_bind ?_
  simp only [bne_self_eq_false, Bool.false_eq_true, if_false]
  exact (valTypes_reads _ h.params).bind ((valTypes_reads _ h.results).bind_last (reads_pure _))

theorem funcType_sound :
    Sound funcType fun t l => t.WF ∧ (written Encode.funcType t).length ≤ l.length := by
  unfold funcType
  refine Sound.bind rd_byte_sound fun form l₁ h₁ => ?_
  subst h₁
  split
  · exact ((fails_throw _).bind _).sound
  · rename_i hform
    have hform : form = 0x60 := by simpa using hform
    subst hform
    refine Sound.bind valTypes_sound fun params l₂ ⟨hp, hlp⟩ =>
      Sound.bind valTypes_sound fun results l₃ ⟨hr, hlr⟩ => sound_pure ⟨⟨hp, hr⟩, ?_⟩
    simp only [written, funcType_data, ByteArray.data_empty, Array.toList_empty, List.nil_append,
      List.length_cons, List.length_append, List.append_nil] at hlp hlr ⊢
    omega

theorem importEntry_reads (i : Import) (h : i.WF) :
    Reads importEntry (written Encode.importEntry i) i := by
  obtain ⟨module, field, desc⟩ := i
  obtain ⟨hm, hf, hd⟩ := h
  unfold importEntry
  simp only [written, importEntry_data, ByteArray.data_empty, Array.toList_empty, List.nil_append,
    List.append_assoc]
  refine (name_reads _ hm).bind ((name_reads _ hf).bind (rd_byte_bind ?_))
  cases desc with
  | func t =>
    refine ((rd_u32_reads t).map _).bind_last (reads_pure _)
  | table t =>
    refine ((tableType_reads t hd).map _).bind_last (reads_pure _)
  | memory l =>
    refine ((limits_reads l hd).map _).bind_last (reads_pure _)
  | global g =>
    refine ((globalType_reads g).map _).bind_last (reads_pure _)

theorem importEntry_sound :
    Sound importEntry fun i l => i.WF ∧ (written Encode.importEntry i).length ≤ l.length := by
  unfold importEntry
  refine Sound.bind name_sound fun module l₁ ⟨hm, hl₁⟩ =>
    Sound.bind name_sound fun field l₂ ⟨hf, hl₂⟩ => Sound.bind rd_byte_sound fun kind l₃ h₃ => ?_
  subst h₃
  -- every kind of import ends the same way once its description is read
  have hdesc : ∀ desc : Step ImportDesc,
      Sound desc (fun d l => d.WF ∧ (importDescBytes d).length ≤ l.length) →
      Sound (desc >>= fun d => pure { module := module, name := field, desc := d })
        fun i l₄ => i.WF ∧ (written Encode.importEntry i).length ≤ (l₁ ++ (l₂ ++ ([kind] ++ l₄))).length := by
    intro desc hd
    refine Sound.bind hd fun d l₄ ⟨hwf, hlen⟩ => sound_pure ⟨⟨hm, hf, hwf⟩, ?_⟩
    simp only [written, importEntry_data, ByteArray.data_empty, Array.toList_empty, List.nil_append,
      List.length_append, List.length_cons, List.append_nil] at hl₁ hl₂ hlen ⊢
    omega
  split
  · exact hdesc _ (Sound.map _ (rd_u32_sound.mono fun _ _ h => ⟨trivial, h⟩))
  · exact hdesc _ (Sound.map _ (tableType_sound.mono fun _ _ h => h))
  · exact hdesc _ (Sound.map _ (limits_sound.mono fun _ _ h => h))
  · exact hdesc _ (Sound.map _ (globalType_sound.mono fun _ _ h => ⟨trivial, h⟩))
  · exact ((fails_throw _).bind _).sound

theorem ofByte?_toByte (k : ExternKind) : ExternKind.ofByte? k.toByte = some k := by
  cases k <;> rfl

theorem exportEntry_reads (e : Export) (h : NameFits e.name) :
    Reads exportEntry (written Encode.exportEntry e) e := by
  unfold exportEntry
  simp only [written, exportEntry_data, ByteArray.data_empty, Array.toList_empty, List.nil_append]
  refine (name_reads _ h).bind (rd_byte_bind ?_)
  simp only [ofByte?_toByte, pure_bind]
  exact (rd_u32_reads _).bind_last (reads_pure _)

theorem exportEntry_sound :
    Sound exportEntry fun e l => NameFits e.name ∧ (written Encode.exportEntry e).length ≤ l.length := by
  unfold exportEntry
  refine Sound.bind name_sound fun field l₁ ⟨hf, hl₁⟩ => Sound.bind rd_byte_sound fun b l₂ h₂ => ?_
  subst h₂
  split
  · simp only [pure_bind]
    refine Sound.bind rd_u32_sound fun idx l₃ hl₃ => sound_pure ⟨hf, ?_⟩
    simp only [written, exportEntry_data, ByteArray.data_empty, Array.toList_empty, List.nil_append,
      List.length_append, List.length_cons, List.append_nil] at hl₁ ⊢
    omega
  · exact ((fails_throw _).bind _).sound

/-! ## Vectors -/

section Vectors

variable {item : Step α}

theorem items_reads {w : α → List UInt8} (xs : List α) (h : ∀ x ∈ xs, Reads item (w x) x) :
    Reads (items xs.length item) (xs.map w).flatten xs.toArray := by
  unfold items
  simp only [Std.Legacy.Range.forIn_eq_forIn_range', Std.Legacy.Range.size, bind_pure,
    Nat.sub_zero, Nat.add_sub_cancel, Nat.div_one]
  simpa using collect_reads xs 0 #[] fun i x hx => (h x hx).tryCatch _

theorem items_sound {P : α → List UInt8 → Prop} (h : Sound item P) (n : Nat) :
    Sound (items n item) fun xs l =>
      ∃ ls, l = ls.flatten ∧ xs.size = n ∧ List.Forall₂ P xs.toList ls := by
  unfold items
  simp only [Std.Legacy.Range.forIn_eq_forIn_range', Std.Legacy.Range.size, bind_pure,
    Nat.sub_zero, Nat.add_sub_cancel, Nat.div_one]
  refine (collect_sound (fun i => h.tryCatch fun e => fails_throw _) n 0 #[]).mono ?_
  rintro _ _ ⟨xs, ls, rfl, rfl, hlen, hall⟩
  exact ⟨ls, rfl, by simpa using hlen, by simpa using hall⟩

/-- Entries that each read back in no more bytes than were read: all of them do. -/
theorem forall₂_written {P : α → Prop} {w : α → List UInt8} :
    ∀ {xs : List α} {ls : List (List UInt8)},
      List.Forall₂ (fun x l => P x ∧ (w x).length ≤ l.length) xs ls →
        (∀ x ∈ xs, P x) ∧ ((xs.map w).flatten).length ≤ ls.flatten.length
  | [], [], .nil => ⟨by simp, by simp⟩
  | _ :: _, _ :: _, .cons ⟨hx, hlen⟩ hrest => by
    obtain ⟨hall, hlen'⟩ := forall₂_written hrest
    refine ⟨?_, ?_⟩
    · simp only [List.mem_cons, forall_eq_or_imp]
      exact ⟨hx, hall⟩
    · simp only [List.map_cons, List.flatten_cons, List.length_append]
      omega

theorem vector_reads {w : ByteArray → α → ByteArray} (hw : Appends w) (xs : Array α)
    (hsize : xs.size < 2 ^ 32) (h : ∀ x ∈ xs, Reads item (written w x) x) :
    Reads (vector item) (Encode.vector ByteArray.empty xs w).data.toList xs := by
  rw [Encode.vector_data hw, ByteArray.data_empty, Array.toList_empty, List.nil_append]
  unfold vector
  refine (rd_u32_reads _).bind ?_
  rw [toNat_toUInt32_of_lt hsize, ← Array.length_toList]
  simpa using items_reads xs.toList fun x hx => h x (Array.mem_toList_iff.mp hx)

theorem vector_sound {w : ByteArray → α → ByteArray} (hw : Appends w) {P : α → Prop}
    (h : Sound item fun x l => P x ∧ (written w x).length ≤ l.length) :
    Sound (vector item) fun xs l => (∀ x ∈ xs, P x) ∧ xs.size < 2 ^ 32 ∧
      (Encode.vector ByteArray.empty xs w).data.toList.length ≤ l.length := by
  unfold vector
  refine Sound.bind rd_u32_sound fun n l₁ hl₁ => (items_sound h n.toNat).mono ?_
  rintro xs _ ⟨ls, rfl, hsize, hall⟩
  obtain ⟨hP, hlen⟩ := forall₂_written hall
  refine ⟨fun x hx => hP x (Array.mem_toList_iff.mpr hx), hsize ▸ n.toNat_lt, ?_⟩
  have hcount : xs.size.toUInt32 = n := by rw [hsize, Nat.toUInt32_eq, UInt32.ofNat_toNat]
  rw [Encode.vector_data hw, hcount]
  simp only [ByteArray.data_empty, Array.toList_empty, List.nil_append, List.length_append]
  omega

end Vectors

end Decode

end WasmImage.Wasm
