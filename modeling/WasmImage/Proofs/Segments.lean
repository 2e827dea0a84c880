import WasmImage.Proofs.Entries

/-!
# Segments and bodies that read back

A constant expression is kept as the bytes the decoder scanned; `ConstScan` says what those bytes
are: opcodes with their immediates, up to and including the first end byte. Globals, element
segments and data segments carry such expressions, and a function body is read from its own
bytes. As for the entries, a well-formed value is read back from what the encoder writes for it
(`X_reads`), and the decoder only builds well-formed values, never written longer than they were
read (`X_sound`).
-/

namespace WasmImage.Wasm

open Reader Writer Encode

/-! ## Constant expressions -/

/-- The bytes of a constant expression as the decoder scans them: opcodes with their immediates,
up to and including the first end byte. An immediate is whatever its opcode's reader accepts, so
that numbers written with more groups than they need are kept as they are. -/
inductive ConstScan : List UInt8 → Prop
  | done : ConstScan [0x0b]
  | step {op : UInt8} {imm rest : List UInt8} : op ≠ 0x0b →
      Reads (Decode.constImmediate op) imm () → ConstScan rest → ConstScan (op :: (imm ++ rest))

/-- A constant expression, end byte included. -/
def IsConstExpr (e : ByteArray) : Prop := ConstScan e.data.toList

/-- A global whose initializer is a constant expression. -/
def Global.WF (g : Global) : Prop := IsConstExpr g.init

/-- An element segment as the decoder builds it from its flags: one of the eight encodings, a
table index only where one is written, an offset exactly when the segment is active, an element
kind only for function indices and a type only for expressions, and items of the kind the flags
say, as many as a 32-bit count holds. -/
structure Element.WF (e : Element) : Prop where
  flags : e.flags ≤ 7
  tableIdx : (e.flags &&& 2 != 0 && e.flags &&& 1 == 0) = false → e.tableIdx = 0
  offset : match e.offset with
    | some o => e.isActive = true ∧ IsConstExpr o
    | none => e.isActive = false
  kind : (e.flags &&& 3 != 0) = false → e.elemKind = 0 ∧ e.type = .funcref
  exprKind : (e.flags &&& 4 != 0) = true → e.elemKind = 0
  funcType : (e.flags &&& 4 != 0) = false → e.type = .funcref
  items : match e.items with
    | .exprs es => (e.flags &&& 4 != 0) = true ∧ es.length < 2 ^ 32 ∧ ∀ x ∈ es, IsConstExpr x
    | .funcs fs => (e.flags &&& 4 != 0) = false ∧ fs.length < 2 ^ 32

/-- A function body whose local groups a 32-bit count holds and whose contents a 32-bit size
holds. -/
structure Body.WF (b : Body) : Prop where
  locals : b.locals.length < 2 ^ 32
  size : (localsBytes b.locals).length + b.code.size < 2 ^ 32

/-- A data segment as the decoder builds it from its flags: one of the three encodings, a memory
index only under flags 2, an offset exactly when the segment is active, and contents that a
32-bit size holds. -/
structure DataSegment.WF (d : DataSegment) : Prop where
  flags : d.flags ≤ 2
  memIdx : d.flags ≠ 2 → d.memIdx = 0
  offset : match d.offset with
    | some o => (d.flags != 1) = true ∧ IsConstExpr o
    | none => (d.flags != 1) = false
  init : d.init.size < 2 ^ 32

namespace Decode

variable {α : Type}

/-- A reader that reads again whatever it read, from the same bytes. -/
def Rereads (r : Step α) : Prop := Sound r fun a l => Reads r l a

theorem Rereads.rd {r : Reader ReadFault α} (h : Sound r fun a l => Reads r l a) :
    Rereads (rd r) :=
  (h.mono fun _ _ h => h.lift _).lift _

theorem Rereads.discard {r : Step α} (h : Rereads r) : Rereads (r >>= fun _ => pure ()) :=
  Sound.bind h fun _ _ h' => sound_pure (by rw [List.append_nil]; exact h'.bind_last (reads_pure ()))

theorem bytes_rereads (n : Nat) : Sound (bytes n) fun x l => Reads (bytes n) l x :=
  (bytes_sound n).mono fun x l ⟨hl, hn⟩ => by
    subst hl
    simpa [hn] using bytes_reads x.data.toList

/-- Whatever immediate an opcode's reader accepts, it reads again from the same bytes. -/
theorem constImmediate_rereads (op : UInt8) : Rereads (constImmediate op) := by
  unfold constImmediate
  split
  · exact (Rereads.rd (Leb128.readS32_sound)).discard
  · exact (Rereads.rd (Leb128.readS64_sound)).discard
  · exact (Rereads.rd (bytes_rereads 4)).discard
  · exact (Rereads.rd (bytes_rereads 8)).discard
  · exact (Rereads.rd (Leb128.readU32_sound.mono fun _ _ h => h.1)).discard
  · exact (Rereads.rd (Leb128.readU32_sound.mono fun _ _ h => h.1)).discard
  · exact (Rereads.rd (byte_sound.mono fun b l h => h ▸ byte_reads b)).discard
  all_goals first
    | exact sound_pure (reads_pure ())
    | exact sound_throw

/-- The scan reads a constant expression with any fuel that covers its bytes, since every step
reads at least its opcode. -/
theorem constExprFrom_reads {l : List UInt8} (h : ConstScan l) :
    ∀ fuel, l.length ≤ fuel → Reads (constExprFrom fuel) l () := by
  induction h with
  | done =>
    intro fuel hfuel
    obtain ⟨fuel, rfl⟩ : ∃ f, fuel = f + 1 := ⟨fuel - 1, by simp at hfuel; omega⟩
    rw [constExprFrom]
    refine rd_byte_bind ?_
    simp only [if_true]
    exact reads_pure ()
  | step hop himm _ ih =>
    intro fuel hfuel
    obtain ⟨fuel, rfl⟩ : ∃ f, fuel = f + 1 := ⟨fuel - 1, by simp at hfuel; omega⟩
    rw [constExprFrom]
    refine rd_byte_bind ?_
    simp only [hop, if_false]
    exact himm.bind (ih fuel (by simp at hfuel; omega))

theorem constExprFrom_sound : ∀ fuel, Sound (constExprFrom fuel) fun _ l => ConstScan l
  | 0 => by
    rw [constExprFrom]
    exact sound_throw
  | fuel + 1 => by
    rw [constExprFrom]
    refine Sound.bind rd_byte_sound fun op l₁ h₁ => ?_
    subst h₁
    split
    · rename_i hop
      subst hop
      exact sound_pure ConstScan.done
    · rename_i hop
      exact Sound.bind (constImmediate_rereads op) fun _ _ himm =>
        (constExprFrom_sound fuel).mono fun _ _ hrest => (ConstScan.step hop himm hrest :)

theorem constExpr_reads {l : List UInt8} (h : ConstScan l) : Reads constExpr l l.toByteArray := by
  intro c rest hv hc
  have hfuel : l.length ≤ c.remaining + 1 := by
    rw [Cursor.remaining_eq, hc, List.length_append]
    omega
  unfold constExpr
  rw [runFrom_bind_ok (runFrom_position c), runFrom_bind_ok (runFrom_remaining c),
    runFrom_bind_ok (constExprFrom_reads h _ hfuel c rest hv hc),
    runFrom_bind_ok (runFrom_position _), runFrom_slice, Cursor.skip_bytes, Cursor.skip_pos,
    Cursor.extract_of_ahead hc]

theorem isConstExpr_reads {e : ByteArray} (h : IsConstExpr e) : Reads constExpr e.data.toList e :=
  (constExpr_reads h).congr rfl (Cursor.toByteArray_data_toList e)

theorem constExpr_sound : Sound constExpr fun e l => l = e.data.toList ∧ ConstScan l := by
  intro c e c' hv hr
  unfold constExpr at hr
  rw [runFrom_bind_ok (runFrom_position c), runFrom_bind_ok (runFrom_remaining c)] at hr
  obtain ⟨_, c₁, hscan, hrest⟩ := runFrom_bind_eq_ok hr
  obtain ⟨l, rfl, hc, hl⟩ := constExprFrom_sound _ c _ c₁ hv hscan
  rw [runFrom_bind_ok (runFrom_position _), runFrom_slice] at hrest
  simp only [Prod.mk.injEq, Except.ok.injEq] at hrest
  obtain ⟨rfl, rfl⟩ := hrest
  refine ⟨l, rfl, hc, ?_, hl⟩
  rw [Cursor.skip_bytes, Cursor.skip_pos, Cursor.extract_of_ahead hc]
  simp

/-! ## Globals -/

theorem global_reads (g : Global) (h : g.WF) : Reads global (written Encode.global g) g := by
  unfold global
  simp only [written, global_data, ByteArray.data_empty, Array.toList_empty, List.nil_append]
  refine (globalType_reads _).bind ((constExpr_reads h).bind_last ?_)
  simp only [Cursor.toByteArray_data_toList]
  exact reads_pure g

theorem global_sound :
    Sound global fun g l => g.WF ∧ (written Encode.global g).length ≤ l.length := by
  unfold global
  refine Sound.bind globalType_sound fun type l₁ hl₁ =>
    Sound.bind constExpr_sound fun init l₂ ⟨hinit, hscan⟩ => sound_pure ⟨?_, ?_⟩
  · subst hinit
    exact hscan
  · simp only [written, global_data, ByteArray.data_empty, Array.toList_empty, List.nil_append,
      List.length_append, List.append_nil, hinit] at hl₁ ⊢
    omega

/-! ## Element segments -/

section ElementItems

variable {item : Step α}

theorem items'_reads {w : α → List UInt8} (xs : List α) (h : ∀ x ∈ xs, Reads item (w x) x) :
    Reads (element.items' xs.length item) (xs.map w).flatten xs.toArray := by
  unfold element.items'
  simp only [Std.Legacy.Range.forIn_eq_forIn_range', Std.Legacy.Range.size, bind_pure,
    Nat.sub_zero, Nat.add_sub_cancel, Nat.div_one]
  simpa using collect_reads xs 0 #[] fun _ x hx => h x hx

theorem items'_sound {P : α → List UInt8 → Prop} (h : Sound item P) (n : Nat) :
    Sound (element.items' n item) fun xs l =>
      ∃ ls, l = ls.flatten ∧ xs.size = n ∧ List.Forall₂ P xs.toList ls := by
  unfold element.items'
  simp only [Std.Legacy.Range.forIn_eq_forIn_range', Std.Legacy.Range.size, bind_pure,
    Nat.sub_zero, Nat.add_sub_cancel, Nat.div_one]
  refine (collect_sound (fun _ => h) n 0 #[]).mono ?_
  rintro _ _ ⟨xs, ls, rfl, rfl, hlen, hall⟩
  exact ⟨ls, rfl, by simpa using hlen, by simpa using hall⟩

end ElementItems

theorem element_reads (e : Element) (h : e.WF) : Reads element (written Encode.element e) e := by
  obtain ⟨flags, tableIdx, offset, elemKind, type, items⟩ := e
  obtain ⟨hflags, htable, hoffset, hkind, hexprKind, hfuncType, hitems⟩ := h
  dsimp only [Element.isActive] at hflags htable hoffset hkind hexprKind hfuncType hitems
  unfold element
  simp only [written, element_data, ByteArray.data_empty, Array.toList_empty, List.nil_append]
  refine (rd_u32_reads _).bind ?_
  simp only [Std.not_lt.mpr hflags, if_false, ite_bind_same, bind_pure_bind]
  -- the table index, the offset and the kind byte, each read exactly when the flags say
  refine (reads_ite (fun _ => rd_u32_reads tableIdx) fun hc => ?_).bind ?_
  · rw [htable (by simpa using hc)]
    exact reads_pure 0
  have hoff : Reads (if (flags &&& 1 == 0) = true then some <$> constExpr else pure none)
      (if (flags &&& 1 == 0) = true then (offset.getD ByteArray.empty).data.toList else [])
      offset := by
    refine reads_ite (fun hc => ?_) fun hc => ?_
    · cases offset with
      | none => simp [hc] at hoffset
      | some o => exact (isConstExpr_reads hoffset.2).map some
    · cases offset with
      | none => exact reads_pure none
      | some o => simp [hc] at hoffset
  refine hoff.bind ?_
  have hkb : Reads (if (flags &&& 3 != 0) = true then
        (fun a => if (flags &&& 4 != 0) = true then (0, ⟨a⟩) else (a, ValType.funcref)) <$> rd byte
      else pure (0, ValType.funcref))
      (if (flags &&& 3 != 0) = true then [if (flags &&& 4 != 0) = true then type.byte else elemKind]
      else []) (elemKind, type) := by
    refine reads_ite (fun _ => ((rd_byte_reads _).map _).congr rfl ?_) fun hc => ?_
    · by_cases hu : (flags &&& 4 != 0) = true
      · simp [hu, hexprKind hu]
      · simp [hu, hfuncType (by simpa using hu)]
    · obtain ⟨h1, h2⟩ := hkind (by simpa using hc)
      rw [h1, h2]
      exact reads_pure _
  refine hkb.bind ?_
  -- the items, of the kind the flags say
  cases items with
  | exprs es =>
    obtain ⟨hu, hlen, hes⟩ := hitems
    simp only [hu, if_true, exprList]
    refine (rd_u32_reads _).bind ?_
    rw [toNat_toUInt32_of_lt hlen]
    refine ((items'_reads es fun x hx => isConstExpr_reads (hes x hx)).map _).bind_last ?_
    exact reads_pure _
  | funcs fs =>
    obtain ⟨hu, hlen⟩ := hitems
    simp only [hu, Bool.false_eq_true, if_false, funcList]
    refine (rd_u32_reads _).bind ?_
    rw [toNat_toUInt32_of_lt hlen]
    refine ((items'_reads fs fun x _ => rd_u32_reads x).map _).bind_last ?_
    exact reads_pure _

/-- The items of an element segment with their count: expressions or function indices as the
flags say, never written back longer than they were read. -/
theorem elemItems_sound (u : Bool) :
    Sound (rd Leb128.readU32 >>= fun n => if u = true then
        (fun es => ElemItems.exprs es.toList) <$> element.items' n.toNat constExpr
      else (fun fs => ElemItems.funcs fs.toList) <$> element.items' n.toNat (rd Leb128.readU32))
      fun it l => (match it with
        | .exprs es => u = true ∧ es.length < 2 ^ 32 ∧ ∀ x ∈ es, IsConstExpr x
        | .funcs fs => u = false ∧ fs.length < 2 ^ 32) ∧
      (if u = true then Leb128.unsigned (exprList it).length.toUInt32.toNat ++
          ((exprList it).map (·.data.toList)).flatten
        else Leb128.unsigned (funcList it).length.toUInt32.toNat ++
          ((funcList it).map (Leb128.unsigned ·.toNat)).flatten).length ≤ l.length := by
  refine Sound.bind rd_u32_sound fun n l₁ hl₁ => ?_
  have hcount : ∀ {β : Type} (xs : List β), xs.length = n.toNat → xs.length.toUInt32 = n := by
    intro _ xs h
    rw [h, Nat.toUInt32_eq, UInt32.ofNat_toNat]
  cases u with
  | true =>
    have hexpr : Sound constExpr fun e l => IsConstExpr e ∧ e.data.toList.length ≤ l.length :=
      constExpr_sound.mono fun e l ⟨hl, hs⟩ => by
        subst hl
        exact ⟨hs, Nat.le_refl _⟩
    refine Sound.map _ ((items'_sound hexpr n.toNat).mono ?_)
    rintro xs _ ⟨ls, rfl, hsize, hall⟩
    obtain ⟨hconst, hlen⟩ := forall₂_written hall
    have hn : xs.toList.length = n.toNat := by simpa using hsize
    refine ⟨⟨rfl, hn ▸ n.toNat_lt, hconst⟩, ?_⟩
    simp only [if_true, exprList, hcount _ hn, List.length_append]
    omega
  | false =>
    have hidx : Sound (rd Leb128.readU32) fun v l =>
        True ∧ (Leb128.unsigned v.toNat).length ≤ l.length :=
      rd_u32_sound.mono fun _ _ h => ⟨trivial, h⟩
    refine Sound.map _ ((items'_sound hidx n.toNat).mono ?_)
    rintro xs _ ⟨ls, rfl, hsize, hall⟩
    obtain ⟨-, hlen⟩ := forall₂_written hall
    have hn : xs.toList.length = n.toNat := by simpa using hsize
    refine ⟨⟨rfl, hn ▸ n.toNat_lt⟩, ?_⟩
    simp only [Bool.false_eq_true, if_false, funcList, hcount _ hn, List.length_append]
    omega

theorem element_sound :
    Sound element fun e l => e.WF ∧ (written Encode.element e).length ≤ l.length := by
  unfold element
  refine Sound.bind rd_u32_sound fun flags l₁ hl₁ => ?_
  by_cases hflags : flags > 7
  · simp only [hflags, if_true]
    exact ((fails_throw _).bind _).sound
  simp only [hflags, if_false, ite_bind_same, bind_pure_bind]
  -- the table index, the offset and the kind byte, each read exactly when the flags say
  have htab : Sound (if (flags &&& 2 != 0 && flags &&& 1 == 0) = true then rd Leb128.readU32
      else pure 0) fun t l => ((flags &&& 2 != 0 && flags &&& 1 == 0) = false → t = 0) ∧
        (if (flags &&& 2 != 0 && flags &&& 1 == 0) = true then Leb128.unsigned t.toNat
          else []).length ≤ l.length :=
    Sound.ite (fun hc => rd_u32_sound.mono fun _ _ h => ⟨fun hc' => by simp [hc] at hc',
      by simpa [hc] using h⟩) fun hc => sound_pure ⟨fun _ => rfl, by simp [hc]⟩
  have hoff : Sound (if (flags &&& 1 == 0) = true then some <$> constExpr else pure none)
      fun o l => (match o with
        | some x => (flags &&& 1 == 0) = true ∧ IsConstExpr x
        | none => (flags &&& 1 == 0) = false) ∧
        (if (flags &&& 1 == 0) = true then (o.getD ByteArray.empty).data.toList
          else []).length ≤ l.length := by
    refine Sound.ite (fun hc => Sound.map some (constExpr_sound.mono fun e l ⟨hl, hs⟩ => ?_))
      fun hc => sound_pure ⟨by simpa using hc, by simp [hc]⟩
    subst hl
    exact ⟨⟨hc, hs⟩, by simp [hc]⟩
  have hkb : Sound (if (flags &&& 3 != 0) = true then
        (fun a => if (flags &&& 4 != 0) = true then ((0 : UInt8), ValType.mk a)
          else (a, ValType.funcref)) <$> rd byte
      else pure (0, ValType.funcref)) fun p l =>
        ((flags &&& 3 != 0) = false → p.1 = 0 ∧ p.2 = .funcref) ∧
        ((flags &&& 4 != 0) = true → p.1 = 0) ∧ ((flags &&& 4 != 0) = false → p.2 = .funcref) ∧
        (if (flags &&& 3 != 0) = true then [if (flags &&& 4 != 0) = true then p.2.byte else p.1]
          else []).length ≤ l.length := by
    refine Sound.ite (fun hc => Sound.map _ (rd_byte_sound.mono fun b l hl => ?_))
      fun hc => sound_pure (by simp [hc])
    subst hl
    by_cases hu : (flags &&& 4 != 0) = true <;> simp [hc, hu]
  refine Sound.bind htab fun tableIdx l₂ ⟨htab', hl₂⟩ => Sound.bind hoff fun offset l₃ ⟨hoff', hl₃⟩ =>
    Sound.bind hkb fun kb l₄ ⟨hk₁, hk₂, hk₃, hl₄⟩ => ?_
  simp only [← bind_assoc]
  refine Sound.bind (elemItems_sound _) fun items l₅ ⟨hit, hl₅⟩ => sound_pure ⟨?_, ?_⟩
  · exact ⟨Std.not_lt.mp hflags, htab', hoff', hk₁, hk₂, hk₃, hit⟩
  · simp only [written, element_data, ByteArray.data_empty, Array.toList_empty,
      List.nil_append, List.length_append, List.append_nil] at hl₁ hl₂ hl₃ hl₄ hl₅ ⊢
    omega

/-! ## Function bodies -/

theorem localGroup_reads (g : LocalGroup) :
    Reads (do
        let n ← rd Leb128.readU32
        let t ← rd byte
        return ({ count := n, type := ⟨t⟩ } : LocalGroup)) (written Encode.localGroup g) g := by
  simp only [written, localGroup_data, ByteArray.data_empty, Array.toList_empty, List.nil_append]
  exact (rd_u32_reads _).bind (rd_byte_bind (reads_pure g))

theorem localsBytes_eq (gs : List LocalGroup) :
    localsBytes gs = (Encode.vector ByteArray.empty gs.toArray localGroup).data.toList := by
  rw [Encode.vector_data appends_localGroup, localsBytes]
  simp

/-- The contents of a body are its local groups, then its code up to the end of the body. -/
theorem bodyContents_readsAll (b : Body) (h : b.locals.length < 2 ^ 32) :
    ReadsAll bodyContents (localsBytes b.locals ++ b.code.data.toList) b := by
  unfold bodyContents
  rw [localsBytes_eq]
  refine ReadsAll.bind (vector_reads appends_localGroup b.locals.toArray (by simpa using h)
    fun g _ => localGroup_reads g) ?_
  rw [bind_pure_comp]
  exact ((rest_readsAll _).map _).congr rfl (by simp)

theorem body_reads (b : Body) (h : b.WF) : Reads body (written Encode.body b) b := by
  have hsize : (b.locals.foldl localGroup (u32 ByteArray.empty b.locals.length.toUInt32) ++
      b.code).size = (localsBytes b.locals ++ b.code.data.toList).length := by
    rw [← ByteArray.size_data, ← Array.length_toList, body_contents_data]
  have hfits : (localsBytes b.locals ++ b.code.data.toList).length < 2 ^ 32 := by
    simpa using h.size
  unfold body
  simp only [written, body_data, ByteArray.data_empty, Array.toList_empty, List.nil_append]
  refine (rd_u32_reads _).bind ((rd_bytes_reads ?_).bind_last ?_)
  · rw [hsize, toNat_toUInt32_of_lt hfits]
  · have hrun := bodyContents_readsAll b h.locals
      (Cursor.ofBytes (localsBytes b.locals ++ b.code.data.toList).toByteArray) (Nat.zero_le _)
      (by simp [List.data_toByteArray])
    simp only [within, run_eq_runFrom, hrun]
    exact reads_pure b

theorem bodyContents_soundAll : SoundAll bodyContents fun b l =>
    b.locals.length < 2 ^ 32 ∧ (localsBytes b.locals).length + b.code.size ≤ l.length := by
  unfold bodyContents
  have hgroup : Sound (do
      let n ← rd Leb128.readU32
      let t ← rd byte
      return ({ count := n, type := ⟨t⟩ } : LocalGroup)) fun g l =>
        True ∧ (written Encode.localGroup g).length ≤ l.length :=
    Sound.bind rd_u32_sound fun n l₁ h₁ => Sound.bind rd_byte_sound fun t l₂ h₂ =>
      sound_pure ⟨trivial, (by subst h₂; simp [written]; omega)⟩
  refine Sound.bindAll (vector_sound appends_localGroup hgroup) fun groups l₁ hgroups => ?_
  obtain ⟨-, hsize, hlen⟩ := hgroups
  rw [bind_pure_comp]
  refine SoundAll.map _ (rest_soundAll.mono fun code l₂ hl₂ => ⟨by simpa using hsize, ?_⟩)
  have hlocals : (localsBytes groups.toList).length ≤ l₁.length := by
    rw [localsBytes_eq]
    simpa using hlen
  simp only [List.length_append, hl₂, Array.length_toList, ByteArray.size_data]
  omega

/-- A successful run of `step` alone on `bytes`. -/
theorem runFrom_of_within {step : Step α} {bytes : ByteArray} {a : α}
    (h : (within step bytes).1 = .ok a) :
    ∃ c', step.runFrom (Cursor.ofBytes bytes) = (.ok a, c') := by
  unfold within at h
  rcases hr : step.runFrom (Cursor.ofBytes bytes) with ⟨res, c'⟩
  rw [run_eq_runFrom, hr] at h
  exact ⟨c', by rw [← h]⟩

theorem body_sound : Sound body fun b l => b.WF ∧ (written Encode.body b).length ≤ l.length := by
  unfold body
  refine Sound.bind rd_u32_sound fun size l₁ hl₁ =>
    Sound.bind (rd_bytes_sound _) fun bytes l₂ ⟨hl₂, hlen₂⟩ => ?_
  split
  · rename_i b hb
    obtain ⟨c', hrun⟩ := runFrom_of_within hb
    obtain ⟨hlocals, hsize⟩ := bodyContents_soundAll _ b c' (Nat.zero_le _) hrun
    rw [Cursor.ofBytes_ahead, ← hl₂, hlen₂] at hsize
    have hfits : (localsBytes b.locals).length + b.code.size < 2 ^ 32 :=
      Nat.lt_of_le_of_lt hsize size.toNat_lt
    refine sound_pure ⟨⟨hlocals, hfits⟩, ?_⟩
    have hcontents : (b.locals.foldl localGroup (u32 ByteArray.empty b.locals.length.toUInt32) ++
        b.code).size = (localsBytes b.locals).length + b.code.size := by
      simpa using congrArg List.length (body_contents_data b)
    have hprefix := Leb128.length_unsigned_mono hsize
    simp only [written, body_data, ByteArray.data_empty, Array.toList_empty, List.nil_append,
      List.length_append, List.append_nil, hcontents, toNat_toUInt32_of_lt hfits,
      Array.length_toList, ByteArray.size_data]
    omega
  · exact (fails_throw _).sound

/-! ## Data segments -/

theorem dataSegment_reads (d : DataSegment) (h : d.WF) :
    Reads dataSegment (written Encode.dataSegment d) d := by
  obtain ⟨flags, memIdx, offset, init⟩ := d
  obtain ⟨hflags, hmem, hoffset, hinit⟩ := h
  dsimp only at hflags hmem hoffset hinit
  unfold dataSegment
  simp only [written, dataSegment_data, ByteArray.data_empty, Array.toList_empty,
    List.nil_append, List.append_assoc]
  refine (rd_u32_reads _).bind ?_
  simp only [Std.not_lt.mpr hflags, if_false, ite_bind_same]
  refine (reads_ite (fun _ => rd_u32_reads memIdx) fun hc => ?_).bind ?_
  · rw [hmem hc]
    exact reads_pure 0
  have hoff : Reads (if (flags != 1) = true then some <$> constExpr else pure none)
      (if (flags != 1) = true then (offset.getD ByteArray.empty).data.toList else []) offset := by
    refine reads_ite (fun hc => ?_) fun hc => ?_
    · cases offset with
      | none => simp [hc] at hoffset
      | some o => exact (isConstExpr_reads hoffset.2).map some
    · cases offset with
      | none => exact reads_pure none
      | some o => simp [hc] at hoffset
  refine hoff.bind ((rd_u32_reads _).bind ((rd_bytes_reads ?_).bind_last ?_))
  · rw [toNat_toUInt32_of_lt hinit]
    simp
  · simp only [Cursor.toByteArray_data_toList]
    exact reads_pure _

theorem dataSegment_sound :
    Sound dataSegment fun d l => d.WF ∧ (written Encode.dataSegment d).length ≤ l.length := by
  unfold dataSegment
  refine Sound.bind rd_u32_sound fun flags l₁ hl₁ => ?_
  by_cases hflags : flags > 2
  · simp only [hflags, if_true]
    exact ((fails_throw _).bind _).sound
  simp only [hflags, if_false, ite_bind_same]
  have hmem : Sound (if flags = 2 then rd Leb128.readU32 else pure 0) fun m l =>
      (flags ≠ 2 → m = 0) ∧ (if flags = 2 then Leb128.unsigned m.toNat else []).length ≤ l.length :=
    Sound.ite (fun hc => rd_u32_sound.mono fun _ _ h => ⟨fun hc' => absurd hc hc', by simpa [hc] using h⟩)
      fun hc => sound_pure ⟨fun _ => rfl, by simp [hc]⟩
  have hoff : Sound (if (flags != 1) = true then some <$> constExpr else pure none)
      fun o l => (match o with
        | some x => (flags != 1) = true ∧ IsConstExpr x
        | none => (flags != 1) = false) ∧
        (if (flags != 1) = true then (o.getD ByteArray.empty).data.toList
          else []).length ≤ l.length := by
    refine Sound.ite (fun hc => Sound.map some (constExpr_sound.mono fun e l ⟨hl, hs⟩ => ?_))
      fun hc => sound_pure ⟨by simpa using hc, by simp [hc]⟩
    subst hl
    exact ⟨⟨hc, hs⟩, by simp [hc]⟩
  refine Sound.bind hmem fun memIdx l₂ ⟨hmem', hl₂⟩ => Sound.bind hoff fun offset l₃ ⟨hoff', hl₃⟩ =>
    Sound.bind rd_u32_sound fun n l₄ hl₄ => Sound.bind (rd_bytes_sound _) fun init l₅ ⟨hl₅, hlen₅⟩ =>
      sound_pure ⟨⟨Std.not_lt.mp hflags, hmem', hoff', ?_⟩, ?_⟩
  · rw [← ByteArray.size_data, ← Array.length_toList, ← hl₅, hlen₅]
    exact n.toNat_lt
  · have hsize : init.size = n.toNat := by
      rw [← ByteArray.size_data, ← Array.length_toList, ← hl₅, hlen₅]
    simp only [written, dataSegment_data, ByteArray.data_empty, Array.toList_empty,
      List.nil_append, List.length_append, List.append_nil, hsize, Nat.toUInt32_eq,
      UInt32.ofNat_toNat] at hl₁ hl₂ hl₃ hl₄ ⊢
    rw [← hl₅] at *
    omega

end Decode

end WasmImage.Wasm
