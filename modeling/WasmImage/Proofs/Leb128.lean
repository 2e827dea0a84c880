import WasmImage.Binary.Leb128
import WasmImage.Proofs.Reading
import WasmImage.Proofs.Writing

/-!
# Reading LEB128 numbers

* `readU32_reads`, `readU64_reads`: the shortest encoding of a number reads back as that number,
  whatever follows it;
* `readU32_sound`, `readU64_sound`: whatever a successful read consumed, it reads the same way
  in front of any other bytes, and the shortest encoding of the number read is no longer;
* `readS32_sound`, `readS64_sound`: signed reads depend only on the bytes they consume;
* `readS32_reads`, `readS64_reads`, `readS33_reads`: the shortest signed encoding of a 32- or
  64-bit number, or of a block type, reads back as that number, whatever follows it;
* `readS64_shortest`: no signed encoding that a 64-bit read accepts is shorter than the
  shortest one of the number it gives;
* `leb128_round_trip`: the writers and readers together.

The readers accumulate groups into a 64-bit word; as long as the groups read fit below the
width, no bit is lost, which `toNat_addGroup` states once.
-/

namespace WasmImage.Leb128

open Reader

/-! ## The shortest unsigned encoding -/

theorem unsigned_of_lt {n : Nat} (h : n < 128) : unsigned n = [n.toUInt8] := by
  rw [unsigned, if_pos h]

theorem unsigned_of_ge {n : Nat} (h : 128 ≤ n) :
    unsigned n = (n % 128 + 128).toUInt8 :: unsigned (n / 128) := by
  rw [unsigned, if_neg (by omega)]

theorem length_unsigned_pos (n : Nat) : 0 < (unsigned n).length := by
  rw [unsigned]
  split <;> simp

/-- A number below `128 ^ k` takes at most `k` groups. -/
theorem length_unsigned_le : ∀ {k n : Nat}, 0 < k → n < 128 ^ k → (unsigned n).length ≤ k
  | 0, _, hk, _ => absurd hk (Nat.lt_irrefl 0)
  | k + 1, n, _, hn => by
    by_cases h : n < 128
    · simp [unsigned_of_lt h]
    · rw [unsigned_of_ge (by omega), List.length_cons]
      have hk : 0 < k := by
        rcases Nat.eq_zero_or_pos k with rfl | hk
        · simp at hn; omega
        · exact hk
      have hdiv : n / 128 < 128 ^ k := by
        rw [Nat.pow_succ] at hn
        exact Nat.div_lt_of_lt_mul (by rwa [Nat.mul_comm] at hn)
      have := length_unsigned_le hk hdiv
      omega

/-! ## Groups in a 64-bit accumulator -/

/-- The shortest encoding of `n` has room for `n`. -/
theorem lt_pow_length_unsigned (n : Nat) : n < 128 ^ (unsigned n).length := by
  induction n using Nat.strongRecOn with
  | ind n ih =>
    by_cases h : n < 128
    · simpa [unsigned_of_lt h] using h
    · rw [unsigned_of_ge (by omega), List.length_cons, Nat.pow_succ]
      have := ih (n / 128) (by omega)
      omega

/-- A smaller number never takes more groups. -/
theorem length_unsigned_mono {m n : Nat} (h : m ≤ n) :
    (unsigned m).length ≤ (unsigned n).length :=
  length_unsigned_le (length_unsigned_pos n) (Nat.lt_of_le_of_lt h (lt_pow_length_unsigned n))

theorem and_128_eq_zero_iff {x : Nat} (h : x < 256) : x &&& 128 = 0 ↔ x < 128 := by
  constructor
  · intro hx
    have h7 := congrArg (·.testBit 7) hx
    simp only [Nat.testBit_and, Nat.zero_testBit] at h7
    rw [Nat.testBit_eq_decide_div_mod_eq, Nat.testBit_eq_decide_div_mod_eq] at h7
    simp at h7
    omega
  · intro hx
    apply Nat.eq_of_testBit_eq
    intro i
    rw [Nat.testBit_and, show (128 : Nat) = 2 ^ 7 from rfl, Nat.testBit_two_pow, Nat.zero_testBit]
    by_cases hi : 7 = i
    · subst hi
      simp [Nat.testBit_lt_two_pow (show x < 2 ^ 7 from hx)]
    · simp [hi]

/-- A byte ends a number exactly when its high bit is clear. -/
theorem last_iff (b : UInt8) : b &&& 128 = 0 ↔ b.toNat < 128 := by
  rw [← and_128_eq_zero_iff b.toNat_lt]
  have hand : (b &&& 128).toNat = b.toNat &&& 128 := UInt8.toNat_and b 128
  constructor
  · intro h; rw [← hand, h]; rfl
  · intro h; apply UInt8.toNat_inj.mp; rw [hand, h]; rfl

theorem toNat_group (b : UInt8) : ((b &&& 0x7f).toUInt64).toNat = b.toNat % 128 := by
  rw [UInt8.toNat_toUInt64, UInt8.toNat_and]
  exact Nat.and_two_pow_sub_one_eq_mod b.toNat 7

/-- Adding a group at bit `shift` to an accumulator below that bit adds its value. -/
theorem toNat_addGroup {acc : UInt64} {shift : Nat} (b : UInt8) (hacc : acc.toNat < 2 ^ shift)
    (hfit : b.toNat % 128 * 2 ^ shift < 2 ^ 64) :
    (acc ||| (b &&& 0x7f).toUInt64 <<< shift.toUInt64).toNat =
      acc.toNat + b.toNat % 128 * 2 ^ shift := by
  rw [UInt64.toNat_or, UInt64.toNat_shiftLeft, toNat_group]
  by_cases hz : b.toNat % 128 = 0
  · simp [hz]
  · have hs : shift < 64 := by
      by_cases hs : shift < 64
      · exact hs
      · have : 2 ^ 64 ≤ 2 ^ shift := Nat.pow_le_pow_right (by decide) (by omega)
        have : 2 ^ shift ≤ b.toNat % 128 * 2 ^ shift := Nat.le_mul_of_pos_left _ (by omega)
        omega
    have hshift : shift.toUInt64.toNat % 64 = shift := by
      simp only [Nat.toUInt64_eq, UInt64.toNat_ofNat']
      omega
    rw [hshift, Nat.shiftLeft_eq, Nat.mod_eq_of_lt hfit, Nat.or_comm, Nat.mul_comm,
      ← Nat.two_pow_add_eq_or_of_lt hacc]
    omega

/-- After a group at bit `shift`, the accumulator stays below bit `shift + 7`. -/
theorem toNat_addGroup_lt {acc : UInt64} {shift : Nat} (b : UInt8) (hacc : acc.toNat < 2 ^ shift) :
    (acc ||| (b &&& 0x7f).toUInt64 <<< shift.toUInt64).toNat < 2 ^ (shift + 7) := by
  rw [UInt64.toNat_or]
  have hacc' : acc.toNat < 2 ^ (shift + 7) :=
    Nat.lt_of_lt_of_le hacc (Nat.pow_le_pow_right (by decide) (by omega))
  apply Nat.or_lt_two_pow hacc'
  rw [UInt64.toNat_shiftLeft, toNat_group]
  by_cases hs : shift < 64
  · have hshift : shift.toUInt64.toNat % 64 = shift := by
      simp only [Nat.toUInt64_eq, UInt64.toNat_ofNat']
      omega
    rw [hshift, Nat.shiftLeft_eq]
    calc b.toNat % 128 * 2 ^ shift % 2 ^ 64 ≤ b.toNat % 128 * 2 ^ shift := Nat.mod_le _ _
      _ < 128 * 2 ^ shift := Nat.mul_lt_mul_of_pos_right (Nat.mod_lt _ (by decide))
          (Nat.two_pow_pos _)
      _ = 2 ^ (shift + 7) := by rw [Nat.pow_add, Nat.mul_comm]
  · exact Nat.lt_of_lt_of_le (Nat.mod_lt _ (Nat.two_pow_pos _))
      (Nat.pow_le_pow_right (by decide) (by omega))

theorem position_runFrom {ε : Type} (c : Cursor) :
    (position : Reader ε Nat).runFrom c = (.ok c.pos, c) := rfl

/-- The overflow branch of a read never succeeds. -/
theorem runFrom_overflow_ne {c c' : Cursor} {v : UInt64} :
    ((position >>= fun p => throw (ReadFault.overflow p)) : Reader ReadFault UInt64).runFrom c ≠
      (.ok v, c') := by
  rw [runFrom_bind_ok (position_runFrom c), runFrom_throw]
  simp

/-! ## Unsigned numbers -/

/-- The shortest encoding of `n`, read after groups that made `acc`, adds `n` at bit `shift`. -/
theorem readUnsignedFrom_reads {width : Nat} (hw : width ≤ 64) :
    ∀ (n : Nat) (acc : UInt64) (shift : Nat), acc.toNat < 2 ^ shift → n * 2 ^ shift < 2 ^ width →
      Reads (readUnsignedFrom width acc shift) (unsigned n) (acc.toNat + n * 2 ^ shift).toUInt64 := by
  intro n
  induction n using Nat.strongRecOn with
  | ind n ih =>
    intro acc shift hacc hn
    have hfit (g : Nat) (hg : g ≤ n) : g * 2 ^ shift < 2 ^ 64 :=
      Nat.lt_of_le_of_lt (Nat.mul_le_mul_right _ hg)
        (Nat.lt_of_lt_of_le hn (Nat.pow_le_pow_right (by decide) hw))
    rw [readUnsignedFrom]
    by_cases hsmall : n < 128
    · have hb : (n.toUInt8).toNat = n := by simp [Nat.mod_eq_of_lt (by omega : n < 256)]
      rw [unsigned_of_lt hsmall]
      refine (byte_reads _).bind ?_ |>.congr (List.append_nil _) rfl
      have hlow : n.toUInt8 &&& 128 = 0 := (last_iff _).mpr (by rw [hb]; exact hsmall)
      simp only [hlow, if_true]
      have hv := toNat_addGroup n.toUInt8 hacc (by rw [hb, Nat.mod_eq_of_lt hsmall]; exact hfit n (Nat.le_refl _))
      rw [hb, Nat.mod_eq_of_lt hsmall] at hv
      have heq : (acc ||| (n.toUInt8 &&& 0x7f).toUInt64 <<< shift.toUInt64) =
          (acc.toNat + n * 2 ^ shift).toUInt64 := by
        apply UInt64.toNat_inj.mp
        rw [hv, Nat.toUInt64_eq, UInt64.toNat_ofNat', Nat.mod_eq_of_lt (by rw [← hv]; exact UInt64.toNat_lt _)]
      rw [heq]
      exact reads_pure _
    · have hbig : 128 ≤ n := by omega
      have hb : (n % 128 + 128).toUInt8.toNat = n % 128 + 128 := by
        simp [Nat.mod_eq_of_lt (by omega : n % 128 + 128 < 256)]
      have hbmod : (n % 128 + 128).toUInt8.toNat % 128 = n % 128 := by rw [hb]; omega
      rw [unsigned_of_ge hbig]
      refine (byte_reads _).bind ?_
      have hhigh : ¬ ((n % 128 + 128).toUInt8 &&& 128 = 0) := by
        rw [last_iff, hb]
        omega
      have hwide : ¬ (width ≤ shift + 7) := by
        intro h
        have : 2 ^ width ≤ 2 ^ (shift + 7) := Nat.pow_le_pow_right (by decide) h
        have : 2 ^ (shift + 7) ≤ n * 2 ^ shift := by
          rw [Nat.pow_add, Nat.mul_comm]; exact Nat.mul_le_mul_right _ hbig
        omega
      simp only [hhigh, if_false, hwide, dite_false]
      have hv := toNat_addGroup (n % 128 + 128).toUInt8 hacc
        (by rw [hbmod]; exact hfit (n % 128) (Nat.mod_le _ _))
      rw [hbmod] at hv
      have hacc' := toNat_addGroup_lt (n % 128 + 128).toUInt8 hacc
      have hrest : n / 128 * 2 ^ (shift + 7) < 2 ^ width := by
        calc n / 128 * 2 ^ (shift + 7) = n / 128 * 128 * 2 ^ shift := by
              rw [Nat.pow_add, Nat.mul_comm (2 ^ shift), Nat.mul_assoc]
          _ ≤ n * 2 ^ shift := Nat.mul_le_mul_right _ (Nat.div_mul_le_self n 128)
          _ < 2 ^ width := hn
      refine (ih (n / 128) (by omega) _ (shift + 7) hacc' hrest).congr rfl ?_
      rw [hv]
      congr 1
      have : n = n % 128 + 128 * (n / 128) := (Nat.mod_add_div n 128).symm
      calc acc.toNat + n % 128 * 2 ^ shift + n / 128 * 2 ^ (shift + 7)
          = acc.toNat + (n % 128 + 128 * (n / 128)) * 2 ^ shift := by
            rw [Nat.pow_add, Nat.add_mul, Nat.add_assoc]
            congr 2
            rw [Nat.mul_comm 128, Nat.mul_assoc, Nat.mul_comm 128]
        _ = acc.toNat + n * 2 ^ shift := by rw [← this]

theorem readU32_reads (v : UInt32) : Reads readU32 (unsigned v.toNat) v := by
  have h := readUnsignedFrom_reads (by decide : 32 ≤ 64) v.toNat 0 0 (by simp)
    (by simpa using v.toNat_lt)
  unfold readU32
  rw [bind_pure_comp]
  refine (h.map _).congr rfl ?_
  apply UInt32.toNat_inj.mp
  simp

theorem readU64_reads (v : UInt64) : Reads readU64 (unsigned v.toNat) v := by
  have h := readUnsignedFrom_reads (by decide : 64 ≤ 64) v.toNat 0 0 (by simp)
    (by simpa using v.toNat_lt)
  exact h.congr rfl (by simp)

/-- A successful unsigned read depends only on the bytes it consumed, reads at least one, and
gives a number below bit `shift + 7` per group. -/
theorem readUnsignedFrom_sound (width : Nat) :
    ∀ (acc : UInt64) (shift : Nat), Sound (readUnsignedFrom width acc shift) fun v l =>
      Reads (readUnsignedFrom width acc shift) l v ∧ 0 < l.length ∧
        (acc.toNat < 2 ^ shift → v.toNat < 2 ^ (shift + 7 * l.length)) := by
  intro acc shift
  induction h : width - shift using Nat.strongRecOn generalizing acc shift with
  | ind k ih =>
    rw [readUnsignedFrom]
    refine Sound.bind byte_sound fun b l₁ hl₁ => ?_
    subst hl₁
    by_cases hlow : b &&& 128 = 0
    · simp only [hlow, if_true]
      refine sound_pure ⟨?_, by simp, fun hacc => ?_⟩
      · refine ((byte_reads b).bind ?_).congr (List.append_nil _) rfl
        simp only [hlow, if_true]
        exact reads_pure _
      · exact Nat.lt_of_lt_of_le (toNat_addGroup_lt b hacc)
          (Nat.pow_le_pow_right (by decide) (by simp))
    · simp only [hlow, if_false]
      by_cases hwide : width ≤ shift + 7
      · simp only [hwide, dite_true]
        intro c v c' _ hr
        exact absurd hr runFrom_overflow_ne
      · simp only [hwide, dite_false]
        refine (ih (width - (shift + 7)) (by omega) _ (shift + 7) rfl).mono ?_
        rintro v l₂ ⟨hr, hpos, hbound⟩
        refine ⟨?_, by simp, fun hacc => ?_⟩
        · refine (byte_reads b).bind ?_
          rw [if_neg hlow]
          exact hr
        · have := hbound (toNat_addGroup_lt b hacc)
          rw [List.singleton_append, List.length_cons,
            show shift + 7 * (l₂.length + 1) = shift + 7 + 7 * l₂.length by omega]
          exact this

theorem readU32_sound :
    Sound readU32 fun v l => Reads readU32 l v ∧ (unsigned v.toNat).length ≤ l.length := by
  unfold readU32
  rw [bind_pure_comp]
  refine Sound.map _ ((readUnsignedFrom_sound 32 0 0).mono fun w l ⟨hr, hpos, hbound⟩ => ?_)
  refine ⟨hr.map _, ?_⟩
  apply length_unsigned_le hpos
  have := hbound (by simp)
  rw [Nat.zero_add, Nat.pow_mul] at this
  simp only [UInt64.toNat_toUInt32]
  exact Nat.lt_of_le_of_lt (Nat.mod_le _ _) this

theorem readU64_sound :
    Sound readU64 fun v l => Reads readU64 l v ∧ (unsigned v.toNat).length ≤ l.length := by
  refine (readUnsignedFrom_sound 64 0 0).mono fun v l ⟨hr, hpos, hbound⟩ => ⟨hr, ?_⟩
  apply length_unsigned_le hpos
  have := hbound (by simp)
  rwa [Nat.zero_add, Nat.pow_mul] at this

/-! ## Signed numbers -/

/-- A successful signed read depends only on the bytes it consumed. -/
theorem readSignedFrom_sound (width : Nat) :
    ∀ (acc : UInt64) (shift : Nat), Sound (readSignedFrom width acc shift) fun v l =>
      Reads (readSignedFrom width acc shift) l v := by
  intro acc shift
  induction h : width - shift using Nat.strongRecOn generalizing acc shift with
  | ind k ih =>
    rw [readSignedFrom]
    refine Sound.bind byte_sound fun b l₁ hl₁ => ?_
    subst hl₁
    by_cases hlow : b &&& 128 = 0
    · simp only [hlow, if_true]
      refine Sound.ite (fun hsign => sound_pure ?_) (fun hsign => sound_pure ?_)
      all_goals
        refine ((byte_reads b).bind ?_).congr (List.append_nil _) rfl
        simp only [hlow, if_true]
      · rw [if_pos hsign]; exact reads_pure _
      · rw [if_neg hsign]; exact reads_pure _
    · simp only [hlow, if_false]
      by_cases hwide : width ≤ shift + 7
      · simp only [hwide, dite_true]
        intro c v c' _ hr
        exact absurd hr runFrom_overflow_ne
      · simp only [hwide, dite_false]
        refine (ih (width - (shift + 7)) (by omega) _ (shift + 7) rfl).mono fun v l₂ hr => ?_
        refine (byte_reads b).bind ?_
        simp only [hlow, if_false]
        exact hr

theorem readS32_sound : Sound readS32 fun v l => Reads readS32 l v := by
  unfold readS32
  rw [bind_pure_comp]
  exact Sound.map _ ((readSignedFrom_sound 32 0 0).mono fun _ _ hr => hr.map _)

theorem readS64_sound : Sound readS64 fun v l => Reads readS64 l v := by
  unfold readS64
  rw [bind_pure_comp]
  exact Sound.map _ ((readSignedFrom_sound 64 0 0).mono fun _ _ hr => hr.map _)

/-! ## The shortest signed encoding -/

theorem signed_of_last {i : Int}
    (h : (i / 128 = 0 ∧ i % 128 < 64) ∨ (i / 128 = -1 ∧ 64 ≤ i % 128)) :
    signed i = [(i % 128).toNat.toUInt8] := by
  rw [signed, if_pos h]

theorem signed_of_more {i : Int}
    (h : ¬ ((i / 128 = 0 ∧ i % 128 < 64) ∨ (i / 128 = -1 ∧ 64 ≤ i % 128))) :
    signed i = ((i % 128).toNat + 128).toUInt8 :: signed (i / 128) := by
  rw [signed, if_neg h]

theorem length_signed_pos (i : Int) : 0 < (signed i).length := by
  rw [signed]
  split <;> simp

/-- A number in `[-2 ^ (6 + 7 * k), 2 ^ (6 + 7 * k))` takes at most `k + 1` groups. -/
theorem length_signed_le : ∀ (k : Nat) (i : Int), -2 ^ (6 + 7 * k) ≤ i → i < 2 ^ (6 + 7 * k) →
    (signed i).length ≤ k + 1
  | 0, i, hlo, hhi => by
    simp at hlo hhi
    rw [signed_of_last (by omega)]
    simp
  | k + 1, i, hlo, hhi => by
    by_cases h : (i / 128 = 0 ∧ i % 128 < 64) ∨ (i / 128 = -1 ∧ 64 ≤ i % 128)
    · rw [signed_of_last h]
      simp
    · have hpow : (2 : Int) ^ (6 + 7 * (k + 1)) = 2 ^ (6 + 7 * k) * 128 := by
        rw [show 6 + 7 * (k + 1) = (6 + 7 * k) + 7 by omega, Int.pow_add]
        rfl
      rw [hpow] at hlo hhi
      rw [signed_of_more h, List.length_cons]
      have := length_signed_le k (i / 128) (by omega) (by omega)
      omega

theorem and_64_eq_zero_iff (b : UInt8) (h : b.toNat < 128) : b &&& 64 = 0 ↔ b.toNat < 64 := by
  have hand : (b &&& 64).toNat = b.toNat &&& 64 := UInt8.toNat_and b 64
  have key : b.toNat &&& 64 = 0 ↔ b.toNat < 64 := by
    constructor
    · intro hx
      have h6 := congrArg (·.testBit 6) hx
      simp only [Nat.testBit_and, Nat.zero_testBit] at h6
      rw [Nat.testBit_eq_decide_div_mod_eq, Nat.testBit_eq_decide_div_mod_eq] at h6
      simp at h6
      omega
    · intro hx
      apply Nat.eq_of_testBit_eq
      intro i
      rw [Nat.testBit_and, show (64 : Nat) = 2 ^ 6 from rfl, Nat.testBit_two_pow, Nat.zero_testBit]
      by_cases hi : 6 = i
      · subst hi
        simp [Nat.testBit_lt_two_pow (show b.toNat < 2 ^ 6 from hx)]
      · simp [hi]
  constructor
  · intro h0; exact key.mp (by rw [← hand, h0]; rfl)
  · intro hlt; apply UInt8.toNat_inj.mp; rw [hand, key.mpr hlt]; rfl


/-- A group at bit `shift` below 64 adds its value to an accumulator below that bit, modulo
`2 ^ 64`. -/
theorem toNat_addGroup_mod {acc : UInt64} {shift : Nat} (b : UInt8) (hacc : acc.toNat < 2 ^ shift)
    (hs : shift < 64) :
    (acc ||| (b &&& 0x7f).toUInt64 <<< shift.toUInt64).toNat =
      (acc.toNat + b.toNat % 128 * 2 ^ shift) % 2 ^ 64 := by
  have hshift : shift.toUInt64.toNat % 64 = shift := by
    simp only [Nat.toUInt64_eq, UInt64.toNat_ofNat']
    omega
  have hsplit : (2 : Nat) ^ 64 = 2 ^ shift * 2 ^ (64 - shift) := by
    rw [← Nat.pow_add]; congr 1; omega
  rw [UInt64.toNat_or, UInt64.toNat_shiftLeft, toNat_group, hshift, Nat.shiftLeft_eq, hsplit,
    Nat.mul_comm (b.toNat % 128), Nat.mul_mod_mul_left, Nat.or_comm,
    ← Nat.two_pow_add_eq_or_of_lt hacc]
  -- the group's bits above 64 fall off; the accumulator sits below them
  set g := b.toNat % 128
  set M := 2 ^ (64 - shift)
  have hM : 0 < M := Nat.two_pow_pos _
  have hg : g = g % M + M * (g / M) := (Nat.mod_add_div g M).symm
  have hlow : acc.toNat + 2 ^ shift * (g % M) < 2 ^ shift * M := by
    have := Nat.mod_lt g hM
    have : 2 ^ shift * (g % M) + 2 ^ shift ≤ 2 ^ shift * M := by
      rw [← Nat.mul_succ]; exact Nat.mul_le_mul_left _ this
    omega
  have hsum : acc.toNat + 2 ^ shift * g = acc.toNat + 2 ^ shift * (g % M) + 2 ^ shift * M * (g / M) := by
    conv_lhs => rw [hg]
    rw [Nat.mul_add, ← Nat.mul_assoc]
    omega
  rw [hsum, Nat.add_mul_mod_self_left, Nat.mod_eq_of_lt hlow]
  omega

/-- Filling every bit from `k` up with the sign adds `2 ^ 64 - 2 ^ k` to a number below bit `k`. -/
theorem toNat_signFill {x : UInt64} {k : Nat} (hk : k < 64) (hx : x.toNat < 2 ^ k) :
    (x ||| (~~~0 <<< k.toUInt64)).toNat = x.toNat + (2 ^ 64 - 2 ^ k) := by
  have hshift : k.toUInt64.toNat % 64 = k := by
    simp only [Nat.toUInt64_eq, UInt64.toNat_ofNat']
    omega
  have hsplit : (2 : Nat) ^ 64 = 2 ^ k * 2 ^ (64 - k) := by
    rw [← Nat.pow_add]; congr 1; omega
  have hones : (~~~(0 : UInt64)).toNat = 2 ^ 64 - 1 := rfl
  have hpos : 0 < 2 ^ (64 - k) := Nat.two_pow_pos _
  have hfill : (~~~(0 : UInt64) <<< k.toUInt64).toNat = 2 ^ k * (2 ^ (64 - k) - 1) := by
    rw [UInt64.toNat_shiftLeft, hones, hshift, Nat.shiftLeft_eq, hsplit, Nat.mul_comm _ (2 ^ k),
      Nat.mul_mod_mul_left]
    -- the ones shifted past bit 64 fall off
    congr 1
    have hK : 0 < 2 ^ k := Nat.two_pow_pos _
    have hle : 2 ^ (64 - k) ≤ 2 ^ (64 - k) * 2 ^ k := Nat.le_mul_of_pos_right _ hK
    have hsum : 2 ^ k * 2 ^ (64 - k) - 1 = (2 ^ (64 - k) - 1) + 2 ^ (64 - k) * (2 ^ k - 1) := by
      rw [Nat.mul_sub_one, Nat.mul_comm (2 ^ k)]
      omega
    rw [hsum, Nat.add_mul_mod_self_left, Nat.mod_eq_of_lt (by omega)]
  rw [UInt64.toNat_or, hfill, Nat.or_comm, ← Nat.two_pow_add_eq_or_of_lt hx, hsplit,
    Nat.mul_sub_one]
  omega

/-- The last group of a signed number, read after groups that made `acc`, adds the number at bit
`shift`, modulo `2 ^ 64`, the sign filling every bit above it. -/
theorem readSignedFrom_last {width : Nat} {i : Int}
    (hlast : (i / 128 = 0 ∧ i % 128 < 64) ∨ (i / 128 = -1 ∧ 64 ≤ i % 128)) {acc : UInt64}
    {shift : Nat} (hacc : acc.toNat < 2 ^ shift) (hshift : shift < width) (hw : width ≤ 64) :
    ∃ v, Reads (readSignedFrom width acc shift) [(i % 128).toNat.toUInt8] v ∧
      (v.toNat : Int) = ((acc.toNat : Int) + i * 2 ^ shift) % 2 ^ 64 := by
  have hmod := Int.emod_nonneg i (by decide : (128 : Int) ≠ 0)
  have hmod' := Int.emod_lt_of_pos i (by decide : (0 : Int) < 128)
  set b := (i % 128).toNat.toUInt8 with hbdef
  have hb : b.toNat = (i % 128).toNat := by
    simp only [hbdef, Nat.toUInt8_eq, UInt8.toNat_ofNat']
    omega
  have hlow : b &&& 128 = 0 := (last_iff b).mpr (by omega)
  have hacc' := toNat_addGroup_mod b hacc (by omega)
  rw [show b.toNat % 128 = b.toNat by omega] at hacc'
  -- the group's value, and the weight of bit `shift`, as atoms
  have hP : ((2 ^ shift : Nat) : Int) = (2 : Int) ^ shift := Int.natCast_pow 2 shift
  have hbP : b.toNat * 2 ^ shift ≤ 127 * 2 ^ shift := Nat.mul_le_mul_right _ (by omega)
  have h7 : 2 ^ (shift + 7) = 128 * 2 ^ shift := by rw [Nat.pow_add, Nat.mul_comm]
  have hX : ((b.toNat * 2 ^ shift : Nat) : Int) = (b.toNat : Int) * (2 : Int) ^ shift := by
    rw [Int.natCast_mul, hP]
  rw [readSignedFrom]
  by_cases hsign : shift + 7 < 64 ∧ b &&& 0x40 ≠ 0
  · -- a negative number: every bit above its groups is a one
    have hneg : 64 ≤ b.toNat := by
      by_cases hlt : b.toNat < 64
      · exact absurd ((and_64_eq_zero_iff b (by omega)).mpr hlt) hsign.2
      · omega
    have hiP : i * (2 : Int) ^ shift =
        ((b.toNat * 2 ^ shift : Nat) : Int) - 128 * ((2 ^ shift : Nat) : Int) := by
      rw [show i = (b.toNat : Int) - 128 by omega, Int.sub_mul, hX, hP]
    have hfits : 128 * 2 ^ shift ≤ 2 ^ 64 := h7 ▸ Nat.pow_le_pow_right (by decide) (by omega)
    have hbP' : 64 * 2 ^ shift ≤ b.toNat * 2 ^ shift := Nat.mul_le_mul_right _ hneg
    have hsmall : acc.toNat + b.toNat * 2 ^ shift < 2 ^ 64 := by omega
    refine ⟨(acc ||| (b &&& 0x7f).toUInt64 <<< shift.toUInt64) ||| (~~~0 <<< (shift + 7).toUInt64),
      ((byte_reads b).bind ?_).congr (List.append_nil _) rfl, ?_⟩
    · simp only [hlow, if_true, if_pos hsign]
      exact reads_pure _
    · rw [toNat_signFill hsign.1 (toNat_addGroup_lt b hacc), hacc', Nat.mod_eq_of_lt hsmall, h7,
        hiP]
      omega
  · -- a non-negative number, or one whose sign bit falls at bit 63 or above
    refine ⟨acc ||| (b &&& 0x7f).toUInt64 <<< shift.toUInt64,
      ((byte_reads b).bind ?_).congr (List.append_nil _) rfl, ?_⟩
    · simp only [hlow, if_true, if_neg hsign]
      exact reads_pure _
    · rw [hacc']
      by_cases hpos : b.toNat < 64
      · have hiP : i * (2 : Int) ^ shift = ((b.toNat * 2 ^ shift : Nat) : Int) := by
          rw [show i = (b.toNat : Int) by omega, hX]
        rw [hiP]
        omega
      · have hwide : 64 ≤ shift + 7 := by
          by_contra hlt
          exact hsign ⟨by omega, fun h0 => hpos ((and_64_eq_zero_iff b (by omega)).mp h0)⟩
        -- the weight of the sign is a multiple of `2 ^ 64`
        have hdiv : 128 * 2 ^ shift = 2 ^ 64 * 2 ^ (shift + 7 - 64) := by
          rw [← h7, ← Nat.pow_add]
          congr 1
          omega
        have hiP : i * (2 : Int) ^ shift =
            ((b.toNat * 2 ^ shift : Nat) : Int) - ((2 ^ 64 * 2 ^ (shift + 7 - 64) : Nat) : Int) := by
          rw [show i = (b.toNat : Int) - 128 by omega, Int.sub_mul, hX, ← hdiv, Int.natCast_mul, hP]
          rfl
        rw [hiP]
        omega

/-- The shortest signed encoding of `i`, read after groups that made `acc`, adds `i` at bit
`shift`, modulo `2 ^ 64`, as long as the groups before its last stay below the width. -/
theorem readSignedFrom_reads {width : Nat} (hw : width ≤ 64) (i : Int) :
    ∀ (acc : UInt64) (shift : Nat), acc.toNat < 2 ^ shift →
      shift + 7 * ((signed i).length - 1) < width →
      ∃ v, Reads (readSignedFrom width acc shift) (signed i) v ∧
        (v.toNat : Int) = ((acc.toNat : Int) + i * 2 ^ shift) % 2 ^ 64 := by
  induction i using signed.induct with
  | case1 i hlast =>
    intro acc shift hacc hshift
    rw [signed_of_last hlast] at hshift ⊢
    simp only [List.length_singleton, Nat.sub_self, Nat.mul_zero, Nat.add_zero] at hshift
    exact readSignedFrom_last hlast hacc hshift hw
  | case2 i hmore ih =>
    intro acc shift hacc hshift
    rw [signed_of_more hmore] at hshift ⊢
    have hlen := length_signed_pos (i / 128)
    simp only [List.length_cons, Nat.add_sub_cancel] at hshift
    have hmod := Int.emod_nonneg i (by decide : (128 : Int) ≠ 0)
    have hmod' := Int.emod_lt_of_pos i (by decide : (0 : Int) < 128)
    set b := ((i % 128).toNat + 128).toUInt8 with hbdef
    have hb : b.toNat = (i % 128).toNat + 128 := by
      simp only [hbdef, Nat.toUInt8_eq, UInt8.toNat_ofNat']
      omega
    have hhigh : ¬ (b &&& 128 = 0) := by
      rw [last_iff]
      omega
    have hnarrow : ¬ (width ≤ shift + 7) := by omega
    have hgroup : b.toNat % 128 = (i % 128).toNat := by omega
    have hfit : b.toNat % 128 * 2 ^ shift < 2 ^ 64 := by
      have : b.toNat % 128 * 2 ^ shift < 128 * 2 ^ shift :=
        Nat.mul_lt_mul_of_pos_right (Nat.mod_lt _ (by decide)) (Nat.two_pow_pos _)
      have : 128 * 2 ^ shift ≤ 2 ^ 64 := by
        rw [← show 2 ^ 7 * 2 ^ shift = 128 * 2 ^ shift from rfl, ← Nat.pow_add]
        exact Nat.pow_le_pow_right (by decide) (by omega)
      omega
    have hacc' := toNat_addGroup b hacc hfit
    rw [hgroup] at hacc'
    obtain ⟨v, hv, hval⟩ := ih _ (shift + 7) (toNat_addGroup_lt b hacc) (by omega)
    rw [readSignedFrom]
    refine ⟨v, (byte_reads b).bind ?_, ?_⟩
    · simp only [hhigh, if_false, hnarrow, dite_false]
      exact hv
    · -- the group holds `i % 128` and the groups after it `i / 128`, one weight of 128 up
      have hP : ((2 ^ shift : Nat) : Int) = (2 : Int) ^ shift := Int.natCast_pow 2 shift
      have h7 : (2 : Int) ^ (shift + 7) = 128 * 2 ^ shift := by
        rw [Int.pow_add, Int.mul_comm]
        rfl
      have hsplit : i * (2 : Int) ^ shift =
          (i % 128) * (2 : Int) ^ shift + 128 * ((i / 128) * (2 : Int) ^ shift) := by
        rw [← Int.mul_assoc, ← Int.add_mul, show i % 128 + 128 * (i / 128) = i by omega]
      have hlow : (((i % 128).toNat * 2 ^ shift : Nat) : Int) = (i % 128) * (2 : Int) ^ shift := by
        rw [Int.natCast_mul, hP, Int.toNat_of_nonneg hmod]
      rw [hval, hacc', h7, Int.natCast_add, hlow, hsplit, Int.mul_left_comm]
      congr 1
      omega

/-- The shortest signed encoding of a 32-bit number reads back as that number. -/
theorem readS32_reads (x : Int32) : Reads readS32 (signed x.toInt) x := by
  have hlen : (signed x.toInt).length ≤ 5 :=
    length_signed_le 4 x.toInt (Int.le_trans (by decide) x.le_toInt)
      (Int.lt_of_lt_of_le x.toInt_lt (by decide))
  obtain ⟨v, hv, hval⟩ := readSignedFrom_reads (by decide : 32 ≤ 64) x.toInt 0 0 (by simp) (by omega)
  unfold readS32
  rw [bind_pure_comp]
  refine (hv.map _).congr rfl ?_
  -- the low 32 bits of what the groups spell are those of `x`
  rw [← Int32.toInt32_toUInt32 x]
  congr 1
  apply UInt32.toNat_inj.mp
  have hbits := BitVec.toInt_eq_toNat_cond x.toBitVec
  have hlt := x.toBitVec.isLt
  rw [UInt64.toNat_toUInt32, ← Int32.toNat_toBitVec]
  simp only [Int.pow_zero, Int.mul_one, UInt64.toNat_zero, Int.natCast_zero, Int.zero_add] at hval
  have htoInt : x.toInt = x.toBitVec.toInt := rfl
  split at hbits <;> omega


/-- A 64-bit word that holds an integer modulo `2 ^ 64` is that integer's two's complement. -/
theorem toInt64_of_toNat {v : UInt64} {x : Int64} (h : (v.toNat : Int) = x.toInt % 2 ^ 64) :
    v.toInt64 = x := by
  rw [← Int64.toInt64_toUInt64 x]
  congr 1
  apply UInt64.toNat_inj.mp
  have hbits := BitVec.toInt_eq_toNat_cond x.toBitVec
  have hlt := x.toBitVec.isLt
  rw [← Int64.toNat_toBitVec x]
  have htoInt : x.toInt = x.toBitVec.toInt := rfl
  split at hbits <;> omega

/-- The shortest signed encoding of a 64-bit number reads back as that number. -/
theorem readS64_reads (x : Int64) : Reads readS64 (signed x.toInt) x := by
  have hlen : (signed x.toInt).length ≤ 10 :=
    length_signed_le 9 x.toInt (Int.le_trans (by decide) x.le_toInt)
      (Int.lt_of_lt_of_le x.toInt_lt (by decide))
  obtain ⟨v, hv, hval⟩ := readSignedFrom_reads (by decide : 64 ≤ 64) x.toInt 0 0 (by simp) (by omega)
  unfold readS64
  rw [bind_pure_comp]
  refine (hv.map _).congr rfl (toInt64_of_toNat ?_)
  simpa only [Int.pow_zero, Int.mul_one, UInt64.toNat_zero, Int.natCast_zero, Int.zero_add]
    using hval

/-- The shortest signed encoding of a number of 35 bits reads back as that number under the
33-bit read of block types: its five groups stay within the width, and nothing cuts the result
to 33 bits. -/
theorem readS33_reads (x : Int64) (hlo : -2 ^ 34 ≤ x.toInt) (hhi : x.toInt < 2 ^ 34) :
    Reads readS33 (signed x.toInt) x := by
  have hlen : (signed x.toInt).length ≤ 5 := length_signed_le 4 x.toInt hlo hhi
  obtain ⟨v, hv, hval⟩ := readSignedFrom_reads (by decide : 33 ≤ 64) x.toInt 0 0 (by simp) (by omega)
  unfold readS33
  rw [bind_pure_comp]
  refine (hv.map _).congr rfl (toInt64_of_toNat ?_)
  simpa only [Int.pow_zero, Int.mul_one, UInt64.toNat_zero, Int.natCast_zero, Int.zero_add]
    using hval

/-! ## No signed encoding is shorter than the shortest -/

/-- A last group at bit `shift` below 64 adds its whole value to an accumulator below that bit. -/
theorem toNat_addLastGroup {acc : UInt64} {shift : Nat} {b : UInt8} (hacc : acc.toNat < 2 ^ shift)
    (hs : shift + 7 ≤ 64) (hb : b.toNat < 128) :
    (acc ||| (b &&& 0x7f).toUInt64 <<< shift.toUInt64).toNat = acc.toNat + b.toNat * 2 ^ shift := by
  have hfit : b.toNat * 2 ^ shift < 2 ^ (shift + 7) := by
    rw [Nat.pow_add, Nat.mul_comm (2 ^ shift)]
    exact Nat.mul_lt_mul_of_pos_right hb (Nat.two_pow_pos _)
  have hwide : 2 ^ (shift + 7) ≤ 2 ^ 64 := Nat.pow_le_pow_right (by decide) hs
  rw [toNat_addGroup b hacc (by rw [Nat.mod_eq_of_lt hb]; omega), Nat.mod_eq_of_lt hb]

/-- A successful signed read reads at least one group, and when its groups stay below bit 64
the sign fills every bit from the last group's sign bit up: the number is below
`2 ^ (shift + 7 * l.length - 1)` or at least `2 ^ 64` less that. -/
theorem readSignedFrom_sound_range (width : Nat) :
    ∀ (acc : UInt64) (shift : Nat), Sound (readSignedFrom width acc shift) fun v l =>
      0 < l.length ∧ (acc.toNat < 2 ^ shift → shift + 7 * l.length < 64 →
        v.toNat < 2 ^ (shift + 7 * l.length - 1) ∨
          2 ^ 64 - 2 ^ (shift + 7 * l.length - 1) ≤ v.toNat) := by
  intro acc shift
  induction h : width - shift using Nat.strongRecOn generalizing acc shift with
  | ind k ih =>
    rw [readSignedFrom]
    refine Sound.bind byte_sound fun b l₁ hl₁ => ?_
    subst hl₁
    by_cases hlow : b &&& 128 = 0
    · have hb : b.toNat < 128 := (last_iff b).mp hlow
      have h7 : 2 ^ (shift + 7) = 128 * 2 ^ shift := by rw [Nat.pow_add, Nat.mul_comm]
      have h6 : 2 ^ (shift + 6) = 64 * 2 ^ shift := by rw [Nat.pow_add, Nat.mul_comm]
      have hone : shift + 7 * ([b] ++ []).length - 1 = shift + 6 := by simp
      simp only [hlow, if_true]
      refine Sound.ite (fun hsign => sound_pure ⟨by simp, fun hacc _ => ?_⟩)
        (fun hsign => sound_pure ⟨by simp, fun hacc hs => ?_⟩) <;> rw [hone]
      · -- a negative number: the sign fills every bit from `shift + 7` up
        have hneg : 64 ≤ b.toNat := by
          by_contra hlt
          exact hsign.2 ((and_64_eq_zero_iff b hb).mpr (by omega))
        have hgroup : 64 * 2 ^ shift ≤ b.toNat * 2 ^ shift := Nat.mul_le_mul_right _ hneg
        have hwide : 128 * 2 ^ shift ≤ 2 ^ 64 := h7 ▸ Nat.pow_le_pow_right (by decide) (by omega)
        right
        rw [toNat_signFill hsign.1 (toNat_addGroup_lt b hacc),
          toNat_addLastGroup hacc (by omega) hb]
        omega
      · -- a non-negative number, below bit `shift + 6`
        have hs' : shift + 7 < 64 := by simpa using hs
        have hpos : b.toNat < 64 := by
          by_contra hge
          exact hsign ⟨hs', fun h0 => hge ((and_64_eq_zero_iff b hb).mp h0)⟩
        have hgroup : b.toNat * 2 ^ shift ≤ 63 * 2 ^ shift := Nat.mul_le_mul_right _ (by omega)
        left
        rw [toNat_addLastGroup hacc (by omega) hb]
        omega
    · simp only [hlow, if_false]
      by_cases hwide : width ≤ shift + 7
      · simp only [hwide, dite_true]
        intro c v c' _ hr
        exact absurd hr runFrom_overflow_ne
      · simp only [hwide, dite_false]
        refine (ih (width - (shift + 7)) (by omega) _ (shift + 7) rfl).mono
          fun v l₂ ⟨_, hr⟩ => ⟨by simp, fun hacc hs => ?_⟩
        -- the groups after the first start one group higher
        have hlen : shift + 7 * ([b] ++ l₂).length = shift + 7 + 7 * l₂.length := by
          simp only [List.singleton_append, List.length_cons]
          omega
        rw [hlen] at hs ⊢
        exact hr (toNat_addGroup_lt b hacc) hs

/-- Whatever bytes a successful 64-bit signed read consumed, the shortest encoding of the number
it gives is no longer: fewer than ten groups leave the number within their range, and ten
groups hold any 64-bit number. -/
theorem readS64_shortest : Sound readS64 fun v l => (signed v.toInt).length ≤ l.length := by
  unfold readS64
  rw [bind_pure_comp]
  refine Sound.map _ ((readSignedFrom_sound_range 64 0 0).mono fun w l ⟨hpos, hrange⟩ => ?_)
  by_cases hlong : 10 ≤ l.length
  · have := length_signed_le 9 w.toInt64.toInt (Int.le_trans (by decide) w.toInt64.le_toInt)
      (Int.lt_of_lt_of_le w.toInt64.toInt_lt (by decide))
    omega
  · obtain ⟨k, hk⟩ : ∃ k, l.length = k + 1 := ⟨l.length - 1, by omega⟩
    have hk8 : k ≤ 8 := by omega
    have hw := hrange (by simp) (by omega)
    rw [hk, show 0 + 7 * (k + 1) - 1 = 6 + 7 * k by omega] at hw
    rw [hk]
    -- the word read as a signed number, against the range of `k + 1` groups
    have hbits := BitVec.toInt_eq_toNat_cond w.toBitVec
    have htoInt : w.toInt64.toInt = w.toBitVec.toInt := rfl
    have hnat : w.toBitVec.toNat = w.toNat := rfl
    have hlt := w.toNat_lt
    have hP : ((2 ^ (6 + 7 * k) : Nat) : Int) = (2 : Int) ^ (6 + 7 * k) := Int.natCast_pow 2 _
    have hsmall : 2 ^ (6 + 7 * k) ≤ 2 ^ 62 := Nat.pow_le_pow_right (by decide) (by omega)
    refine length_signed_le k w.toInt64.toInt ?_ ?_ <;> split at hbits <;> omega

/-! ## One-byte numbers -/

/-- A signed 32-bit number from 0 to 63 is read from its own byte. -/
theorem readS32_small (x : Int32) (hlo : 0 ≤ x.toInt) (hhi : x.toInt < 64) :
    Reads readS32 [x.toInt.toNat.toUInt8] x := by
  have h := readS32_reads x
  rwa [signed_of_last (by omega), Int.emod_eq_of_lt hlo (by omega)] at h

/-- A signed 64-bit number from 0 to 63 is read from its own byte. -/
theorem readS64_small (x : Int64) (hlo : 0 ≤ x.toInt) (hhi : x.toInt < 64) :
    Reads readS64 [x.toInt.toNat.toUInt8] x := by
  have h := readS64_reads x
  rwa [signed_of_last (by omega), Int.emod_eq_of_lt hlo (by omega)] at h

theorem readU32_zero : Reads readU32 [0] 0 := by
  have h := readU32_reads 0
  rwa [unsigned_of_lt (by decide)] at h

/-! ## Round trips -/

/-- LEB128 round trips: each reader reads back what the writers append, stopping right after
it whatever follows, a signed 32-bit number written as a 64-bit one included, and so does the
33-bit read of block types for numbers of 33 bits; and no encoding that the 64-bit readers
accept is shorter than what the writers append for the number read. -/
theorem leb128_round_trip :
    (∀ v : UInt64, Reads readU64 (Writer.written Writer.u64 v) v) ∧
    (∀ v : UInt32, Reads readU32 (Writer.written Writer.u32 v) v) ∧
    (∀ v : Int64, Reads readS64 (Writer.written Writer.signed v.toInt) v) ∧
    (∀ v : Int32, Reads readS32 (Writer.written Writer.signed v.toInt64.toInt) v) ∧
    (∀ v : Int64, -2 ^ 32 ≤ v.toInt → v.toInt < 2 ^ 32 →
      Reads readS33 (Writer.written Writer.signed v.toInt) v) ∧
    (∀ (bytes : ByteArray) v c, readU64.run bytes = (.ok v, c) →
      (Writer.written Writer.u64 v).length ≤ c.pos) ∧
    (∀ (bytes : ByteArray) v c, readS64.run bytes = (.ok v, c) →
      (Writer.written Writer.signed v.toInt).length ≤ c.pos) := by
  simp only [Writer.written_u64, Writer.written_u32, Writer.written_signed, Int32.toInt_toInt64]
  refine ⟨readU64_reads, readU32_reads, readS64_reads, readS32_reads,
    fun v hlo hhi => readS33_reads v (by omega) (by omega), fun bytes v c hr => ?_,
    fun bytes v c hr => ?_⟩
  · obtain ⟨l, hpos, -, hshort⟩ := readU64_sound.of_run_pos hr
    exact hpos ▸ hshort
  · obtain ⟨l, hpos, hshort⟩ := readS64_shortest.of_run_pos hr
    exact hpos ▸ hshort

/-- The block type `-64`, the empty one, reads back from what the writer appends for it. -/
theorem leb128_round_trip_empty_block_type :
    -2 ^ 32 ≤ (-64 : Int64).toInt ∧ (-64 : Int64).toInt < 2 ^ 32 ∧
      Reads readS33 (Writer.written Writer.signed (-64 : Int64).toInt) (-64) :=
  ⟨by decide, by decide, leb128_round_trip.2.2.2.2.1 (-64) (by decide) (by decide)⟩

end WasmImage.Leb128
