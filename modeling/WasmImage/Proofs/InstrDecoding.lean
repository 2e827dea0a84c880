import WasmImage.Proofs.Leb128
import WasmImage.Proofs.Leb128Groups
import WasmImage.Wasm.Instr

/-!
# Decoding a body's instructions

The decoder reads a body one instruction after another: an opcode byte, then the immediate its
opcode's reader takes. Every reader of an immediate is *delimited*: what it gives depends only
on the bytes it takes, so it reads the same from any cursor those bytes start, whatever follows
them (`Reader.Delimited`, `immediate_delimited`). The one reader that looks past its bytes, the
label count of `br_table` checked against what is left, asks for no more than the labels take.

So the bytes a decoding accepts are exactly instructions laid one after another
(`Instr.Sequence`, `decodeAll_eq_ok_iff`), and decoding is compositional: two decodable bodies
put together decode to both lists of instructions, the second moved by the length of the first;
in every decoding the offsets start at 0 and increase, and each instruction's bytes, from its
offset to the next, decode alone to it (`decodeAll_compositional`).
-/

namespace WasmImage

namespace Reader

variable {ε ε' α β : Type}

/-! ## Delimited readers -/

/-- Every successful run of `r` reads bytes that `r` reads again, to the same value, from every
cursor they start: what `r` gives depends only on the bytes it takes. -/
def Delimited (r : Reader ε α) : Prop := Sound r fun a l => Reads r l a

theorem delimited_pure (a : α) : Delimited (pure a : Reader ε α) :=
  sound_pure (reads_pure a)

theorem delimited_throw (e : ε) : Delimited (throw e : Reader ε α) :=
  (fails_throw e).sound

theorem Delimited.bind {r : Reader ε α} {f : α → Reader ε β} (h : Delimited r)
    (hf : ∀ a, Delimited (f a)) : Delimited (r >>= f) :=
  Sound.bind h fun a _ hr => (hf a).mono fun _ _ hfr => hr.bind hfr

theorem Delimited.lift {r : Reader ε α} (f : ε → ε') (h : Delimited r) :
    Delimited (Reader.lift f r) :=
  (Sound.lift f h).mono fun _ _ hr => hr.lift f

theorem Delimited.map {r : Reader ε α} (f : α → β) (h : Delimited r) : Delimited (f <$> r) :=
  Sound.map f (h.mono fun _ _ hr => hr.map f)

theorem Delimited.ite {c : Prop} [Decidable c] {r s : Reader ε α} (hr : c → Delimited r)
    (hs : ¬ c → Delimited s) : Delimited (if c then r else s) := by
  by_cases h : c
  · rw [if_pos h]; exact hr h
  · rw [if_neg h]; exact hs h

/-- Two facts about every successful run: they speak of the same bytes. -/
theorem Sound.and {r : Reader ε α} {P Q : α → List UInt8 → Prop} (hp : Sound r P)
    (hq : Sound r Q) : Sound r fun a l => P a l ∧ Q a l := by
  intro c a c' hv hr
  obtain ⟨l, rfl, hahead, hpl⟩ := hp c a _ hv hr
  obtain ⟨l', hskip, hahead', hql⟩ := hq c a _ hv hr
  have hl : l' = l := List.append_cancel_right (hahead'.symm.trans hahead)
  exact ⟨l, rfl, hahead, hpl, hl ▸ hql⟩

theorem byte_delimited : Delimited byte :=
  byte_sound.mono fun b _ hl => hl ▸ byte_reads b

theorem bytes_delimited (n : Nat) : Delimited (bytes n) :=
  (bytes_sound n).mono fun x l ⟨hl, hlen⟩ => by
    have hx : x = l.toByteArray := by rw [hl, Cursor.toByteArray_data_toList]
    exact hx ▸ hlen ▸ bytes_reads l

theorem word32_delimited : Delimited word32 :=
  (bytes_delimited 4).bind fun _ => delimited_pure _

theorem word64_delimited : Delimited word64 :=
  (bytes_delimited 8).bind fun _ => delimited_pure _

/-- A reader of one number's groups is delimited: its value is that of the groups it read. -/
theorem Accepts.delimited {r : Reader ReadFault α} {k : Nat} {val : List UInt8 → α}
    (h : Leb128.Accepts r k val) : Delimited r := by
  intro c a c' hv hr
  obtain ⟨l, rfl, hahead, hg, hk⟩ := h.sound c a _ hv hr
  have hval : a = val l := by
    have hagain := h.reads l hg hk c _ hv hahead
    rw [hr, Prod.mk.injEq, Except.ok.injEq] at hagain
    exact hagain.1
  exact ⟨l, rfl, hahead, hval ▸ h.reads l hg hk⟩

/-- A loop whose every step is delimited is delimited. -/
theorem forIn_delimited {γ : Type} {f : γ → β → Reader ε (ForInStep β)}
    (hf : ∀ x b, Delimited (f x b)) : ∀ (xs : List γ) (b : β), Delimited (forIn xs b f)
  | [], b => delimited_pure b
  | x :: xs, b => by
    rw [List.forIn_cons]
    refine (hf x b).bind fun step => ?_
    cases step with
    | done b' => exact delimited_pure b'
    | yield b' => exact forIn_delimited hf xs b'

end Reader

namespace Wasm

namespace InstrDecode

open Reader

/-! ## The immediates -/

theorem u32_delimited : Delimited u32 :=
  (Accepts.delimited Leb128.readU32_accepts).lift _

/-- A number takes a byte at least. -/
theorem u32_length : Sound u32 fun _ l => 0 < l.length :=
  (Sound.lift _ Leb128.readU32_accepts.sound).mono fun _ _ ⟨hg, _⟩ => hg.length_pos

theorem u32s_delimited (n : Nat) : Delimited (u32s n) := by
  unfold u32s
  simp only [Std.Legacy.Range.forIn_eq_forIn_range', Std.Legacy.Range.size, Nat.sub_zero,
    Nat.add_sub_cancel, Nat.div_one]
  exact (forIn_delimited (fun _ _ => u32_delimited.bind fun _ => delimited_pure _) _ _).bind
    fun _ => delimited_pure _

/-- Pieces of a byte at least each make as many bytes at least. -/
theorem length_le_flatten {xs : List α} {ls : List (List UInt8)}
    (h : List.Forall₂ (fun _ l => 0 < l.length) xs ls) : xs.length ≤ ls.flatten.length := by
  induction h with
  | nil => exact Nat.le_refl _
  | cons hpos _ ih =>
    simp only [List.length_cons, List.flatten_cons, List.length_append]
    omega

/-- `n` numbers take `n` bytes at least. -/
theorem u32s_length (n : Nat) : Sound (u32s n) fun _ l => n ≤ l.length := by
  unfold u32s
  simp only [Std.Legacy.Range.forIn_eq_forIn_range', Std.Legacy.Range.size, Nat.sub_zero,
    Nat.add_sub_cancel, Nat.div_one]
  refine Sound.bind (collect_sound (fun _ => u32_length) n 0 #[]) fun _ _ hl => sound_pure ?_
  obtain ⟨xs, ls, -, rfl, rfl, hall⟩ := hl
  simpa using length_le_flatten hall

/-- The labels of a `br_table`: the count is checked against the bytes left, and the labels and
the default after it take a byte each, so the check passes wherever those bytes are ahead. -/
theorem brTable_delimited : Delimited (immediate 0x0e) := by
  simp only [immediate]
  refine Sound.bind u32_delimited fun n l₁ hr₁ => Sound.bind remaining_sound fun k _ hl₀ => ?_
  subst hl₀
  refine Sound.ite (fun _ => ((fails_throw _).bind _).sound) fun _ => ?_
  refine Sound.bind ((u32s_delimited n.toNat).and (u32s_length n.toNat))
    fun labels l₂ ⟨hr₂, hlen₂⟩ => Sound.bind u32_delimited fun d l₃ hr₃ => sound_pure ?_
  simp only [List.nil_append, List.append_nil]
  refine hr₁.bind (reads_remaining_bind fun k' hk' => ?_)
  have hfits : ¬ n.toNat > k' := by
    rw [List.length_append] at hk'
    omega
  rw [if_neg hfits]
  exact hr₂.bind (hr₃.bind_last (reads_pure _))

theorem memArg_delimited : Delimited memArg := by
  unfold memArg
  refine u32_delimited.bind fun _ => ?_
  -- the memory index, present when bit 6 of the alignment is set, joins the offset after it
  simp only [ite_bind_same]
  refine Delimited.bind ?_ fun _ => ?_
  · exact Delimited.ite (fun _ => u32_delimited) fun _ => delimited_pure _
  · exact ((Accepts.delimited Leb128.readU64_accepts).lift _).bind fun _ => delimited_pure _

/-- What every opcode's immediate gives depends only on the bytes it takes. -/
theorem immediate_delimited (op : UInt8) : Delimited (immediate op) := by
  unfold immediate
  split
  -- block types, and the constants: one number or word each
  case h_1 | h_2 | h_3 =>
    exact ((Accepts.delimited Leb128.readS33_accepts).lift _).bind fun _ => delimited_pure _
  case h_21 =>
    exact ((Accepts.delimited Leb128.readS32_accepts).lift _).bind fun _ => delimited_pure _
  case h_22 =>
    exact ((Accepts.delimited Leb128.readS64_accepts).lift _).bind fun _ => delimited_pure _
  case h_23 => exact (word32_delimited.lift _).bind fun _ => delimited_pure _
  case h_24 => exact (word64_delimited.lift _).bind fun _ => delimited_pure _
  case h_25 => exact (byte_delimited.lift _).bind fun _ => delimited_pure _
  -- labels and indices: one unsigned number, two for an indirect call
  case h_4 | h_5 | h_7 | h_8 | h_12 | h_13 | h_14 | h_15 | h_16 | h_17 | h_18 | h_19 | h_20 | h_26 =>
    exact u32_delimited.bind fun _ => delimited_pure _
  case h_9 | h_10 =>
    exact u32_delimited.bind fun _ => u32_delimited.bind fun _ => delimited_pure _
  case h_6 => exact brTable_delimited
  case h_11 =>
    -- the value types of a typed select, one byte each
    simp only [Std.Legacy.Range.forIn_eq_forIn_range', Std.Legacy.Range.size, Nat.sub_zero,
      Nat.add_sub_cancel, Nat.div_one]
    refine u32_delimited.bind fun _ => ?_
    refine (forIn_delimited (fun _ _ => ?_) _ _).bind fun _ => delimited_pure _
    exact (byte_delimited.lift _).bind fun _ => delimited_pure _
  case h_27 =>
    -- a 0xfc sub-opcode, then as many indices as it takes
    refine u32_delimited.bind fun sub => ?_
    split
    · exact (u32s_delimited _).bind fun _ => delimited_pure _
    · exact delimited_throw _
  case h_28 =>
    -- memory accesses, opcodes that stand alone, and the unsupported rest
    exact Delimited.ite (fun _ => memArg_delimited.map _) fun _ =>
      Delimited.ite (fun _ => delimited_pure _) fun _ => delimited_throw _

end InstrDecode

/-! ## Instructions laid one after another -/

namespace Instr

/-- The bytes of instructions laid one after another, the first at offset `o`: each is its
opcode, then bytes that its opcode's immediate reader takes whatever follows them. -/
inductive Sequence : Nat → List UInt8 → List Instr → Prop
  | nil (o : Nat) : Sequence o [] []
  | cons {o : Nat} {op : UInt8} {l rest : List UInt8} {imm : Option Imm} {is : List Instr} :
      Reader.Reads (InstrDecode.immediate op) l imm → Sequence (o + 1 + l.length) rest is →
      Sequence o (op :: l ++ rest) ({ op, imm, offset := o } :: is)

/-- The offset each instruction starts at, then `size`, where the last one ends. -/
def bounds (size : Nat) (is : List Instr) : List Nat := is.map (·.offset) ++ [size]

@[simp] theorem bounds_nil (size : Nat) : bounds size [] = [size] := rfl

@[simp] theorem bounds_cons (size : Nat) (ins : Instr) (is : List Instr) :
    bounds size (ins :: is) = ins.offset :: bounds size is := rfl

namespace Sequence

variable {o : Nat} {l : List UInt8} {is : List Instr}

theorem append {l₂ : List UInt8} {js : List Instr} (h₁ : Sequence o l is)
    (h₂ : Sequence (o + l.length) l₂ js) : Sequence o (l ++ l₂) (is ++ js) := by
  induction h₁ with
  | nil o => simpa using h₂
  | @cons o op m rest imm is hr _ ih =>
    simp only [List.cons_append, List.append_assoc]
    refine .cons hr (ih ?_)
    have hlen : o + (op :: m ++ rest).length = o + 1 + m.length + rest.length := by
      simp only [List.cons_append, List.length_cons, List.length_append]
      omega
    rwa [hlen] at h₂

/-- Instructions laid out from `o` are laid out from `o + k` with their offsets moved by `k`. -/
theorem shift (h : Sequence o l is) (k : Nat) :
    Sequence (o + k) l (is.map fun ins => { ins with offset := ins.offset + k }) := by
  induction h with
  | nil o => exact .nil _
  | @cons o op m rest imm is hr _ ih =>
    refine .cons hr ?_
    rwa [show o + k + 1 + m.length = o + 1 + m.length + k by omega]

/-- The first bound is where the instructions start. -/
theorem bounds_head (h : Sequence o l is) : (bounds (o + l.length) is).head? = some o := by
  cases h <;> rfl

/-- Each bound is below the next: every instruction takes a byte at least. -/
theorem bounds_chain (h : Sequence o l is) : (bounds (o + l.length) is).IsChain (· < ·) := by
  induction h with
  | nil o => exact List.isChain_singleton _
  | @cons o op m rest imm is _ hseq ih =>
    have hend : o + (op :: m ++ rest).length = o + 1 + m.length + rest.length := by
      simp only [List.cons_append, List.length_cons, List.length_append]
      omega
    rw [hend, bounds_cons]
    refine ih.cons fun y hy => ?_
    obtain rfl := Option.mem_some_iff.mp (hseq.bounds_head ▸ hy)
    show o < o + 1 + m.length
    omega

end Sequence

end Instr

namespace InstrDecode

open Reader

/-! ## The decoding loop -/

/-- A successful run of the loop, with fuel for every byte left, reads instructions laid one
after another up to the end of the bytes, each at the position it starts. -/
theorem instrsFrom_sound : ∀ (fuel : Nat) {acc out : Array Instr} {c c' : Cursor},
    c.pos ≤ c.bytes.size → c.remaining ≤ fuel → (instrsFrom acc fuel).runFrom c = (.ok out, c') →
      ∃ is, out = acc ++ is.toArray ∧ Instr.Sequence c.pos c.ahead is
  | 0, acc, out, c, c', _, hfuel, h => by
    simp only [instrsFrom, runFrom_pure, Prod.mk.injEq, Except.ok.injEq] at h
    have hnil : c.ahead = [] := List.eq_nil_of_length_eq_zero (by rw [← Cursor.remaining_eq]; omega)
    exact ⟨[], by simp [h.1], hnil ▸ .nil _⟩
  | fuel + 1, acc, out, c, c', hv, hfuel, h => by
    simp only [instrsFrom] at h
    rw [runFrom_bind_ok (runFrom_remaining c)] at h
    split at h
    · -- nothing is left
      rename_i hzero
      simp only [runFrom_pure, Prod.mk.injEq, Except.ok.injEq] at h
      have hnil : c.ahead = [] := List.eq_nil_of_length_eq_zero (by rw [← Cursor.remaining_eq, hzero])
      exact ⟨[], by simp [h.1], hnil ▸ .nil _⟩
    rw [runFrom_bind_ok (runFrom_position c)] at h
    obtain ⟨op, c₁, hop, h₁⟩ := runFrom_bind_eq_ok h
    obtain ⟨imm, c₂, himm, h₂⟩ := runFrom_bind_eq_ok h₁
    obtain ⟨l₁, hc₁, hahead₁, hl₁⟩ := Sound.lift _ byte_sound c op c₁ hv hop
    have hv₁ : c₁.pos ≤ c₁.bytes.size := by
      rw [hc₁]
      exact Cursor.le_size_of_ahead hv hahead₁
    obtain ⟨l₂, hc₂, hahead₂, hreads⟩ := Sound.lift _ (immediate_delimited op) c₁ imm c₂ hv₁ himm
    have hv₂ : c₂.pos ≤ c₂.bytes.size := by
      rw [hc₂]
      exact Cursor.le_size_of_ahead hv₁ hahead₂
    have hrem : c₂.remaining ≤ fuel := by
      have hlen := congrArg List.length (hahead₁.trans (congrArg _ hahead₂))
      simp only [hl₁, List.length_append, List.length_singleton] at hlen
      rw [Cursor.remaining_eq] at hfuel ⊢
      omega
    obtain ⟨is, rfl, hseq⟩ := instrsFrom_sound fuel hv₂ hrem h₂
    refine ⟨{ op, imm, offset := c.pos } :: is, by simp, ?_⟩
    rw [hahead₁, hahead₂, hl₁, List.singleton_append]
    refine .cons hreads ?_
    have hpos : c₂.pos = c.pos + 1 + l₂.length := by simp [hc₂, hc₁, hl₁, Nat.add_assoc]
    rwa [hpos] at hseq

/-- Instructions laid one after another up to the end of the bytes are what the loop reads,
given fuel for every byte. -/
theorem instrsFrom_reads {o : Nat} {l : List UInt8} {is : List Instr} (h : Instr.Sequence o l is) :
    ∀ (fuel : Nat) (acc : Array Instr) (c : Cursor), c.pos = o → c.pos ≤ c.bytes.size →
      c.ahead = l → l.length ≤ fuel →
        (instrsFrom acc fuel).runFrom c = (.ok (acc ++ is.toArray), c.skip l.length) := by
  induction h with
  | nil o =>
    intro fuel acc c _ _ hc _
    have hzero : c.remaining = 0 := by rw [Cursor.remaining_eq, hc]; rfl
    cases fuel with
    | zero => simp [instrsFrom]
    | succ fuel =>
      simp only [instrsFrom]
      rw [runFrom_bind_ok (runFrom_remaining c), if_pos hzero]
      simp
  | @cons o op m rest imm is hr _ ih =>
    intro fuel acc c hpos hv hc hfuel
    obtain ⟨fuel, rfl⟩ : ∃ f, fuel = f + 1 := ⟨fuel - 1, by simp at hfuel; omega⟩
    have hc₁ : c.ahead = [op] ++ (m ++ rest) := hc
    have hc₂ : (c.skip [op].length).ahead = m ++ rest := Cursor.ahead_skip hc₁
    have hv₁ := Cursor.le_size_of_ahead hv hc₁
    have hnonzero : ¬ c.remaining = 0 := by rw [Cursor.remaining_eq, hc]; simp
    simp only [instrsFrom]
    rw [runFrom_bind_ok (runFrom_remaining c), if_neg hnonzero, runFrom_bind_ok (runFrom_position c),
      runFrom_bind_ok (((byte_reads op).lift _) c _ hv hc₁),
      runFrom_bind_ok ((hr.lift _) _ rest hv₁ hc₂),
      ih fuel _ _ (by simp only [Cursor.skip_pos, hpos, List.length_singleton])
        (Cursor.le_size_of_ahead hv₁ hc₂) (Cursor.ahead_skip hc₂)
        (by simp only [List.cons_append, List.length_cons, List.length_append] at hfuel; omega)]
    refine Prod.ext ?_ ?_
    · simp [hpos]
    · simp only [Cursor.skip_skip, List.cons_append, List.length_cons, List.length_nil,
        List.length_append]
      congr 1
      omega

end InstrDecode

/-! ## Decoding is compositional -/

namespace Instr

open Reader

/-- A body decodes exactly when its bytes are instructions laid one after another from offset 0,
and then to those instructions. -/
theorem decodeAll_eq_ok_iff {code : ByteArray} {is : List Instr} :
    decodeAll code = .ok is ↔ Sequence 0 code.data.toList is := by
  unfold decodeAll
  rw [Reader.run_eq_runFrom]
  constructor
  · intro h
    rcases hr : (InstrDecode.instrsFrom #[] code.size).runFrom (Cursor.ofBytes code) with
      ⟨_ | out, c⟩ <;> rw [hr] at h
    · cases h
    obtain ⟨is', rfl, hseq⟩ := InstrDecode.instrsFrom_sound code.size (Nat.zero_le _)
      (by simp [Cursor.remaining, Cursor.ofBytes]) hr
    simp only [Except.map, Array.toList_append, Except.ok.injEq] at h
    rw [Cursor.ofBytes_ahead] at hseq
    simpa [← h, Cursor.ofBytes] using hseq
  · intro h
    rw [InstrDecode.instrsFrom_reads h code.size #[] (Cursor.ofBytes code) rfl (Nat.zero_le _)
      (Cursor.ofBytes_ahead code) (by simp)]
    simp [Except.map]

/-- Each instruction's bytes, from its offset to the next bound, decode alone to it. -/
theorem Sequence.slices {o : Nat} {l : List UInt8} {is : List Instr} (h : Sequence o l is) :
    ∀ c : Cursor, c.pos = o → c.pos ≤ c.bytes.size → c.ahead = l →
      List.Forall₂ (fun ins stop =>
          decodeAll (c.bytes.extract ins.offset stop) = .ok [{ ins with offset := 0 }])
        is (bounds (o + l.length) is).tail := by
  induction h with
  | nil o => exact fun _ _ _ _ => .nil
  | @cons o op m rest imm is hr hseq ih =>
    intro c hpos hv hc
    have hc' : c.ahead = (op :: m) ++ rest := hc
    have hend : o + (op :: m ++ rest).length = o + 1 + m.length + rest.length := by
      simp only [List.cons_append, List.length_cons, List.length_append]
      omega
    -- the next bound is where the next instruction starts
    obtain ⟨tl, htl⟩ := List.head?_eq_some_iff.mp hseq.bounds_head
    rw [hend, bounds_cons, List.tail_cons, htl]
    refine .cons ?_ ?_
    · have hslice : c.bytes.extract o (o + 1 + m.length) = (op :: m).toByteArray := by
        rw [← hpos, ← Cursor.extract_of_ahead hc', List.length_cons, Nat.add_comm m.length 1,
          Nat.add_assoc]
      show decodeAll (c.bytes.extract o (o + 1 + m.length)) = .ok [{ op, imm, offset := 0 }]
      rw [hslice, decodeAll_eq_ok_iff]
      have hone : Sequence 0 (op :: m ++ []) [{ op, imm, offset := 0 }] := .cons hr (.nil _)
      simpa using hone
    · have hrest := ih (c.skip (op :: m).length) (by simp [hpos]; omega)
        (Cursor.le_size_of_ahead hv hc') (Cursor.ahead_skip hc')
      rwa [htl, List.tail_cons] at hrest

/-- Decoding is compositional. Two bodies that decode, put together, decode to the first's
instructions followed by the second's, moved by the length of the first. In every decoding the
offsets start at 0 and each is below the next and the last below the end of the code, and each
instruction's bytes, from its offset to the next offset or the end, decode alone to that one
instruction: its opcode and immediate take exactly those bytes. -/
theorem decodeAll_compositional :
    (∀ (a b : ByteArray) (is js : List Instr), decodeAll a = .ok is → decodeAll b = .ok js →
      decodeAll (a ++ b) = .ok (is ++ js.map fun ins => { ins with offset := ins.offset + a.size })) ∧
    ∀ (code : ByteArray) (is : List Instr), decodeAll code = .ok is →
      (bounds code.size is).head? = some 0 ∧ (bounds code.size is).IsChain (· < ·) ∧
      List.Forall₂ (fun ins stop =>
          decodeAll (code.extract ins.offset stop) = .ok [{ ins with offset := 0 }])
        is (bounds code.size is).tail := by
  refine ⟨fun a b is js ha hb => ?_, fun code is h => ?_⟩
  · rw [decodeAll_eq_ok_iff] at ha hb ⊢
    rw [ByteArray.data_append, Array.toList_append]
    refine ha.append ?_
    simpa using hb.shift a.size
  · have hseq := decodeAll_eq_ok_iff.mp h
    have hend : 0 + code.data.toList.length = code.size := by simp
    refine ⟨hend ▸ hseq.bounds_head, hend ▸ hseq.bounds_chain, ?_⟩
    exact hend ▸ hseq.slices (Cursor.ofBytes code) rfl (Nat.zero_le _) (Cursor.ofBytes_ahead code)

/-- A block with a conditional branch out of it, then a `br_table`: each decodes alone, and
together they decode to both, the `br_table` and its end moved by the block's seven bytes; the
bounds of the whole increase from 0 to its end. -/
theorem decodeAll_block_then_brTable :
    decodeAll ⟨#[0x02, 0x40, 0x41, 0x7f, 0x0d, 0x00, 0x0b]⟩ =
      .ok [⟨0x02, some (.block (-64)), 0⟩, ⟨0x41, some (.i32 (-1)), 2⟩, ⟨0x0d, some (.branch 0), 4⟩,
        ⟨0x0b, none, 6⟩] ∧
    decodeAll ⟨#[0x0e, 0x02, 0x00, 0x01, 0x00, 0x0b]⟩ =
      .ok [⟨0x0e, some (.brTable [0, 1] 0), 0⟩, ⟨0x0b, none, 5⟩] ∧
    decodeAll (⟨#[0x02, 0x40, 0x41, 0x7f, 0x0d, 0x00, 0x0b]⟩ ++ ⟨#[0x0e, 0x02, 0x00, 0x01, 0x00, 0x0b]⟩) =
      .ok [⟨0x02, some (.block (-64)), 0⟩, ⟨0x41, some (.i32 (-1)), 2⟩, ⟨0x0d, some (.branch 0), 4⟩,
        ⟨0x0b, none, 6⟩, ⟨0x0e, some (.brTable [0, 1] 0), 7⟩, ⟨0x0b, none, 12⟩] ∧
    (bounds 13 [⟨0x02, some (.block (-64)), 0⟩, ⟨0x41, some (.i32 (-1)), 2⟩,
      ⟨0x0d, some (.branch 0), 4⟩, ⟨0x0b, none, 6⟩, ⟨0x0e, some (.brTable [0, 1] 0), 7⟩,
      ⟨0x0b, none, 12⟩]).IsChain (· < ·) := by
  have hblock : decodeAll ⟨#[0x02, 0x40, 0x41, 0x7f, 0x0d, 0x00, 0x0b]⟩ =
      .ok [⟨0x02, some (.block (-64)), 0⟩, ⟨0x41, some (.i32 (-1)), 2⟩, ⟨0x0d, some (.branch 0), 4⟩,
        ⟨0x0b, none, 6⟩] := by
    cbv
  have htable : decodeAll ⟨#[0x0e, 0x02, 0x00, 0x01, 0x00, 0x0b]⟩ =
      .ok [⟨0x0e, some (.brTable [0, 1] 0), 0⟩, ⟨0x0b, none, 5⟩] := by
    cbv
  have hboth := decodeAll_compositional.1 _ _ _ _ hblock htable
  exact ⟨hblock, htable, hboth, (decodeAll_compositional.2 _ _ hboth).2.1⟩

end Instr

end Wasm

end WasmImage
