import Mathlib.Tactic.Ring
import WasmImage.Proofs.Leb128

/-!
# The inputs the LEB128 readers accept

A reader of `N` bits reads the groups of one number: bytes with the high bit set, then one with
it clear, `⌈N / 7⌉` of them at most. It succeeds exactly on the inputs that start with such
groups, whatever number they spell: the unsigned readers give that number modulo `2 ^ N`, the
signed readers of 32 and 64 bits give the signed number wrapped to `N` bits, and the 33-bit
reader gives it whole. No reader checks that the number fits its width, so the bits of a last
group above the width are dropped rather than refused. Any other input is a fault: the end of
the input, or an overflow once the groups allowed are used up (`leb128_readers_accept`, for every
byte string).
-/

namespace WasmImage.Leb128

open Reader

/-! ## Groups and the numbers they spell -/

/-- `gs` holds the groups of one number: every byte but the last has its high bit set, and the
last has it clear. -/
inductive Groups : List UInt8 → Prop
  | last {b : UInt8} : b.toNat < 128 → Groups [b]
  | more {b : UInt8} {gs : List UInt8} : 128 ≤ b.toNat → Groups gs → Groups (b :: gs)

/-- The number the groups spell, lowest group first. -/
def groupsValue : List UInt8 → Nat
  | [] => 0
  | b :: gs => b.toNat % 128 + 128 * groupsValue gs

/-- The signed number the groups spell: bit 6 of the last group is its sign. -/
def groupsSigned : List UInt8 → Int
  | [] => 0
  | [b] => if b.toNat % 128 < 64 then ((b.toNat % 128 : Nat) : Int) else (b.toNat % 128 : Nat) - 128
  | b :: c :: cs => (b.toNat % 128 : Nat) + 128 * groupsSigned (c :: cs)

theorem Groups.length_pos {gs : List UInt8} (h : Groups gs) : 0 < gs.length := by
  cases h <;> simp

theorem Groups.exists_cons {gs : List UInt8} (h : Groups gs) : ∃ c cs, gs = c :: cs := by
  cases h <;> exact ⟨_, _, rfl⟩

/-- `k` groups spell a signed number of `7 k` bits. -/
theorem Groups.signed_range {gs : List UInt8} (h : Groups gs) :
    -2 ^ (7 * gs.length - 1) ≤ groupsSigned gs ∧ groupsSigned gs < 2 ^ (7 * gs.length - 1) := by
  induction h with
  | @last b hb =>
    simp only [groupsSigned, List.length_singleton]
    split <;> omega
  | @more b gs _ hgs ih =>
    obtain ⟨c, cs, rfl⟩ := hgs.exists_cons
    have hpow : (2 : Int) ^ (7 * (c :: cs).length - 1 + 7) = 128 * 2 ^ (7 * (c :: cs).length - 1) := by
      rw [Int.pow_add, Int.mul_comm]
      rfl
    have hlen : 7 * (b :: c :: cs).length - 1 = 7 * (c :: cs).length - 1 + 7 := by
      simp only [List.length_cons]
      omega
    rw [hlen, hpow, groupsSigned]
    omega

/-! ## Faults -/

/-- Every failing run of `r` fails with a fault that `P` allows. -/
def Faults {ε α : Type} (r : Reader ε α) (P : ε → Prop) : Prop :=
  ∀ c e c', r.runFrom c = (.error e, c') → P e

section Faults

variable {ε α β : Type} {P Q : ε → Prop}

theorem Faults.mono {r : Reader ε α} (h : Faults r P) (hPQ : ∀ e, P e → Q e) : Faults r Q :=
  fun c e c' hr => hPQ e (h c e c' hr)

theorem faults_pure (a : α) : Faults (pure a : Reader ε α) P := by
  intro c e c' h
  simp at h

theorem faults_throw {e : ε} (he : P e) : Faults (throw e : Reader ε α) P := by
  intro c e' c' h
  simp only [runFrom_throw, Prod.mk.injEq, Except.error.injEq] at h
  exact h.1 ▸ he

theorem Faults.bind {r : Reader ε α} {f : α → Reader ε β} (h₁ : Faults r P)
    (h₂ : ∀ a, Faults (f a) P) : Faults (r >>= f) P := by
  intro c e c'' h
  rcases hr : r.runFrom c with ⟨e' | a, c'⟩
  · rw [runFrom_bind_error hr] at h
    simp only [Prod.mk.injEq, Except.error.injEq] at h
    exact h.1 ▸ h₁ c e' c' hr
  · rw [runFrom_bind_ok hr] at h
    exact h₂ a c' e c'' h

theorem Faults.map {r : Reader ε α} (f : α → β) (h : Faults r P) : Faults (f <$> r) P := by
  intro c e c' hr
  rw [runFrom_map] at hr
  rcases hrun : r.runFrom c with ⟨e' | a, c''⟩
  · simp only [hrun, Except.map, Prod.mk.injEq, Except.error.injEq] at hr
    exact hr.1 ▸ h c e' c'' hrun
  · simp [hrun, Except.map] at hr

theorem position_faults : Faults (position : Reader ε Nat) P := by
  intro c e c' h
  simp at h

theorem byte_faults : Faults byte fun e => e = .endOfInput := by
  intro c e c' h
  unfold Reader.byte at h
  rw [runFrom_bind_ok (runFrom_get c)] at h
  split at h
  · rw [runFrom_bind_ok (runFrom_set _ _)] at h
    simp at h
  · simp only [runFrom_throw, Prod.mk.injEq, Except.error.injEq] at h
    exact h.1.symm

end Faults

/-- The faults that end a read of a number: no byte left, or more groups than its width allows. -/
def NumberFault (e : ReadFault) : Prop := e = .endOfInput ∨ ∃ p, e = .overflow p

/-- The overflow a read reports at its position. -/
theorem overflow_faults : Faults ((position >>= fun p => throw (ReadFault.overflow p)) :
    Reader ReadFault UInt64) NumberFault :=
  position_faults.bind fun p => faults_throw (.inr ⟨p, rfl⟩)

/-! ## Readers of one number -/

/-- `r` reads the groups of one number, `k` of them at most, and gives `val` of them: it reads
any such groups whatever follows them, every successful run reads such groups, and every failing
run ends at the end of the input or in an overflow. -/
structure Accepts {α : Type} (r : Reader ReadFault α) (k : Nat) (val : List UInt8 → α) : Prop where
  reads : ∀ gs, Groups gs → gs.length ≤ k → Reads r gs (val gs)
  sound : Sound r fun _ l => Groups l ∧ l.length ≤ k
  faults : Faults r NumberFault

section Accepts

variable {α β : Type} {r : Reader ReadFault α} {k : Nat} {val : List UInt8 → α}

theorem Accepts.map (f : α → β) (h : Accepts r k val) : Accepts (f <$> r) k fun gs => f (val gs) where
  reads gs hg hk := (h.reads gs hg hk).map f
  sound := Sound.map f h.sound
  faults := h.faults.map f

theorem Accepts.congr {val' : List UInt8 → α} (h : Accepts r k val)
    (hval : ∀ gs, Groups gs → gs.length ≤ k → val gs = val' gs) : Accepts r k val' where
  reads gs hg hk := (h.reads gs hg hk).congr rfl (hval gs hg hk)
  sound := h.sound
  faults := h.faults

/-- A reader that accepts the groups of one number succeeds from a cursor exactly when the bytes
ahead start with such groups; it then gives their value and stops right after them. -/
theorem Accepts.runFrom_ok_iff (h : Accepts r k val) {c : Cursor} (hc : c.pos ≤ c.bytes.size)
    (v : α) (c' : Cursor) :
    r.runFrom c = (.ok v, c') ↔ ∃ gs rest, c.ahead = gs ++ rest ∧ Groups gs ∧ gs.length ≤ k ∧
      v = val gs ∧ c' = c.skip gs.length := by
  constructor
  · intro hr
    obtain ⟨l, rfl, hahead, hg, hk⟩ := h.sound c v _ hc hr
    have hreads := h.reads l hg hk c _ hc hahead
    rw [hr, Prod.mk.injEq, Except.ok.injEq] at hreads
    exact ⟨l, _, hahead, hg, hk, hreads.1, rfl⟩
  · rintro ⟨gs, rest, hahead, hg, hk, rfl, rfl⟩
    exact h.reads gs hg hk c rest hc hahead

/-- On the bytes `b`, `r` succeeds exactly when they start with the groups of one number, `k` of
them at most, giving `val` of them and stopping right after them; it fails only at the end of the
input or in an overflow. -/
def AcceptsOn (r : Reader ReadFault α) (k : Nat) (val : List UInt8 → α) (b : ByteArray) : Prop :=
  (∀ v c, r.run b = (.ok v, c) ↔ ∃ gs rest, b.data.toList = gs ++ rest ∧ Groups gs ∧
    gs.length ≤ k ∧ v = val gs ∧ c = (Cursor.ofBytes b).skip gs.length) ∧
  ∀ e c, r.run b = (.error e, c) → NumberFault e

theorem Accepts.acceptsOn (h : Accepts r k val) (b : ByteArray) : AcceptsOn r k val b := by
  refine ⟨fun v c => ?_, fun e c hr => h.faults _ e c hr⟩
  rw [run_eq_runFrom, h.runFrom_ok_iff (by simp [Cursor.ofBytes]) v c, Cursor.ofBytes_ahead]

end Accepts

/-! ## Unsigned numbers -/

/-- Groups read after groups that made `acc` add the number they spell at bit `shift`, modulo
`2 ^ 64`, as long as the last of them starts below the width. -/
theorem readUnsignedFrom_groups {width : Nat} (hw : width ≤ 64) {gs : List UInt8} (hg : Groups gs) :
    ∀ (acc : UInt64) (shift : Nat), acc.toNat < 2 ^ shift → shift + 7 * (gs.length - 1) < width →
      Reads (readUnsignedFrom width acc shift) gs
        (UInt64.ofNat (acc.toNat + groupsValue gs * 2 ^ shift)) := by
  induction hg with
  | @last b hb =>
    intro acc shift hacc hshift
    have hs : shift < 64 := by simp at hshift; omega
    rw [readUnsignedFrom]
    refine ((byte_reads b).bind ?_).congr (List.append_nil _) rfl
    simp only [(last_iff b).mpr hb, if_true]
    refine (reads_pure _).congr rfl ?_
    apply UInt64.toNat_inj.mp
    rw [toNat_addGroup_mod b hacc hs, UInt64.toNat_ofNat']
    simp [groupsValue]
  | @more b gs hb hgs ih =>
    intro acc shift hacc hshift
    have hlen := hgs.length_pos
    have hnext : shift + 7 < width := by simp at hshift; omega
    have hhigh : ¬ (b &&& 128 = 0) := fun h0 => by have := (last_iff b).mp h0; omega
    rw [readUnsignedFrom]
    refine (byte_reads b).bind ?_
    simp only [hhigh, if_false, show ¬ (width ≤ shift + 7) by omega, dite_false]
    refine (ih _ (shift + 7) (toNat_addGroup_lt b hacc) (by simp at hshift; omega)).congr rfl ?_
    apply UInt64.toNat_inj.mp
    rw [UInt64.toNat_ofNat', UInt64.toNat_ofNat', toNat_addGroup_mod b hacc (by omega),
      Nat.mod_add_mod]
    congr 1
    simp only [groupsValue, Nat.pow_add]
    ring

/-- Every successful unsigned read started below the width reads the groups of one number, the
last of them starting below the width. -/
theorem readUnsignedFrom_sound_groups (width : Nat) :
    ∀ (acc : UInt64) (shift : Nat), shift < width → Sound (readUnsignedFrom width acc shift)
      fun _ l => Groups l ∧ shift + 7 * (l.length - 1) < width := by
  intro acc shift
  induction h : width - shift using Nat.strongRecOn generalizing acc shift with
  | ind k ih =>
    intro hshift
    rw [readUnsignedFrom]
    refine Sound.bind byte_sound fun b l₁ hl₁ => ?_
    subst hl₁
    by_cases hlow : b &&& 128 = 0
    · simp only [hlow, if_true]
      exact sound_pure ⟨.last ((last_iff b).mp hlow), by simpa using hshift⟩
    · simp only [hlow, if_false]
      by_cases hwide : width ≤ shift + 7
      · simp only [hwide, dite_true]
        intro c v c' _ hr
        exact absurd hr runFrom_overflow_ne
      · simp only [hwide, dite_false]
        refine (ih (width - (shift + 7)) (by omega) _ (shift + 7) rfl (by omega)).mono ?_
        rintro v l₂ ⟨hg, hlen⟩
        have hb : 128 ≤ b.toNat := Nat.le_of_not_lt fun hlt => hlow ((last_iff b).mpr hlt)
        have := hg.length_pos
        refine ⟨.more hb hg, ?_⟩
        simp only [List.singleton_append, List.length_cons]
        omega

/-- An unsigned read fails only at the end of the input or in an overflow. -/
theorem readUnsignedFrom_faults (width : Nat) :
    ∀ (acc : UInt64) (shift : Nat), Faults (readUnsignedFrom width acc shift) NumberFault := by
  intro acc shift
  induction h : width - shift using Nat.strongRecOn generalizing acc shift with
  | ind k ih =>
    rw [readUnsignedFrom]
    refine (byte_faults.mono fun e he => .inl he).bind fun b => ?_
    by_cases hlow : b &&& 128 = 0
    · simp only [hlow, if_true]
      exact faults_pure _
    · simp only [hlow, if_false]
      by_cases hwide : width ≤ shift + 7
      · simp only [hwide, dite_true]
        exact overflow_faults
      · simp only [hwide, dite_false]
        exact ih (width - (shift + 7)) (by omega) _ (shift + 7) rfl

/-- An unsigned read of `width` bits takes the groups of one number, `k` of them at most, the
`k`-th being the last to start below the width, and gives their number modulo `2 ^ 64`. -/
theorem readUnsignedFrom_accepts {width k : Nat} (hw : width ≤ 64) (hk : 7 * (k - 1) < width)
    (hk' : width ≤ 7 * k) :
    Accepts (readUnsignedFrom width 0 0) k fun gs => UInt64.ofNat (groupsValue gs) where
  reads gs hg hlen := by
    have := hg.length_pos
    exact (readUnsignedFrom_groups hw hg 0 0 (by simp) (by omega)).congr rfl (by simp)
  sound := (readUnsignedFrom_sound_groups width 0 0 (by omega)).mono fun _ l ⟨hg, hlen⟩ => by
    have := hg.length_pos
    exact ⟨hg, by omega⟩
  faults := readUnsignedFrom_faults width 0 0

theorem readU32_accepts : Accepts readU32 5 fun gs => UInt32.ofNat (groupsValue gs) := by
  unfold readU32
  rw [bind_pure_comp]
  refine ((@readUnsignedFrom_accepts 32 5 (by decide) (by decide) (by decide)).map UInt64.toUInt32).congr
    fun gs _ _ => ?_
  apply UInt32.toNat_inj.mp
  simp only [UInt64.toNat_toUInt32, UInt64.toNat_ofNat', UInt32.toNat_ofNat']
  exact Nat.mod_mod_of_dvd _ (by decide)

theorem readU64_accepts : Accepts readU64 10 fun gs => UInt64.ofNat (groupsValue gs) :=
  @readUnsignedFrom_accepts 64 10 (by decide) (by decide) (by decide)

/-! ## Signed numbers -/

/-- Groups read after groups that made `acc` add the signed number they spell at bit `shift`,
modulo `2 ^ 64`, as long as the last of them starts below the width. -/
theorem readSignedFrom_groups {width : Nat} (hw : width ≤ 64) {gs : List UInt8} (hg : Groups gs) :
    ∀ (acc : UInt64) (shift : Nat), acc.toNat < 2 ^ shift → shift + 7 * (gs.length - 1) < width →
      ∃ v, Reads (readSignedFrom width acc shift) gs v ∧
        (v.toNat : Int) = ((acc.toNat : Int) + groupsSigned gs * 2 ^ shift) % 2 ^ 64 := by
  induction hg with
  | @last b hb =>
    intro acc shift hacc hshift
    -- the last group is the number `readSignedFrom_last` reads
    have hlast : (groupsSigned [b] / 128 = 0 ∧ groupsSigned [b] % 128 < 64) ∨
        (groupsSigned [b] / 128 = -1 ∧ 64 ≤ groupsSigned [b] % 128) := by
      simp only [groupsSigned]
      split <;> omega
    have hbyte : (groupsSigned [b] % 128).toNat.toUInt8 = b := by
      have hmod : groupsSigned [b] % 128 = b.toNat := by
        simp only [groupsSigned]
        split <;> omega
      apply UInt8.toNat_inj.mp
      rw [hmod, Int.toNat_natCast, Nat.toUInt8_eq, UInt8.toNat_ofNat']
      omega
    obtain ⟨v, hv, hval⟩ := readSignedFrom_last hlast hacc (by simpa using hshift) hw
    exact ⟨v, hbyte ▸ hv, hval⟩
  | @more b gs hb hgs ih =>
    intro acc shift hacc hshift
    have hlen := hgs.length_pos
    have hnext : shift + 7 < width := by simp at hshift; omega
    have hhigh : ¬ (b &&& 128 = 0) := fun h0 => by have := (last_iff b).mp h0; omega
    obtain ⟨v, hv, hval⟩ := ih _ (shift + 7) (toNat_addGroup_lt b hacc) (by simp at hshift; omega)
    refine ⟨v, ?_, ?_⟩
    · rw [readSignedFrom]
      refine (byte_reads b).bind ?_
      simp only [hhigh, if_false, show ¬ (width ≤ shift + 7) by omega, dite_false]
      exact hv
    · obtain ⟨c, cs, rfl⟩ := hgs.exists_cons
      rw [hval, toNat_addGroup_mod b hacc (by omega), groupsSigned]
      push_cast
      rw [Int.emod_add_emod]
      congr 1
      ring

/-- Every successful signed read started below the width reads the groups of one number, the last
of them starting below the width. -/
theorem readSignedFrom_sound_groups (width : Nat) :
    ∀ (acc : UInt64) (shift : Nat), shift < width → Sound (readSignedFrom width acc shift)
      fun _ l => Groups l ∧ shift + 7 * (l.length - 1) < width := by
  intro acc shift
  induction h : width - shift using Nat.strongRecOn generalizing acc shift with
  | ind k ih =>
    intro hshift
    rw [readSignedFrom]
    refine Sound.bind byte_sound fun b l₁ hl₁ => ?_
    subst hl₁
    by_cases hlow : b &&& 128 = 0
    · simp only [hlow, if_true]
      have hdone : Groups ([b] ++ []) ∧ shift + 7 * (([b] ++ []).length - 1) < width :=
        ⟨.last ((last_iff b).mp hlow), by simpa using hshift⟩
      exact Sound.ite (fun _ => sound_pure hdone) (fun _ => sound_pure hdone)
    · simp only [hlow, if_false]
      by_cases hwide : width ≤ shift + 7
      · simp only [hwide, dite_true]
        intro c v c' _ hr
        exact absurd hr runFrom_overflow_ne
      · simp only [hwide, dite_false]
        refine (ih (width - (shift + 7)) (by omega) _ (shift + 7) rfl (by omega)).mono ?_
        rintro v l₂ ⟨hg, hlen⟩
        have hb : 128 ≤ b.toNat := Nat.le_of_not_lt fun hlt => hlow ((last_iff b).mpr hlt)
        have := hg.length_pos
        refine ⟨.more hb hg, ?_⟩
        simp only [List.singleton_append, List.length_cons]
        omega

/-- A signed read fails only at the end of the input or in an overflow. -/
theorem readSignedFrom_faults (width : Nat) :
    ∀ (acc : UInt64) (shift : Nat), Faults (readSignedFrom width acc shift) NumberFault := by
  intro acc shift
  induction h : width - shift using Nat.strongRecOn generalizing acc shift with
  | ind k ih =>
    rw [readSignedFrom]
    refine (byte_faults.mono fun e he => .inl he).bind fun b => ?_
    by_cases hlow : b &&& 128 = 0
    · simp only [hlow, if_true]
      split <;> exact faults_pure _
    · simp only [hlow, if_false]
      by_cases hwide : width ≤ shift + 7
      · simp only [hwide, dite_true]
        exact overflow_faults
      · simp only [hwide, dite_false]
        exact ih (width - (shift + 7)) (by omega) _ (shift + 7) rfl

/-- The 64-bit word that holds an integer modulo `2 ^ 64`. -/
theorem eq_toUInt64_ofInt {w : UInt64} {i : Int} (h : (w.toNat : Int) = i % 2 ^ 64) :
    w = (Int64.ofInt i).toUInt64 := by
  apply UInt64.toNat_inj.mp
  have hword : (Int64.ofInt i).toUInt64.toNat = (i % 2 ^ 64).toNat := by
    rw [← UInt64.toNat_toBitVec, Int64.toBitVec_toUInt64, Int64.toBitVec_ofInt, BitVec.toNat_ofInt]
    rfl
  omega

/-- A signed read of `width` bits takes the groups of one number, `k` of them at most, the `k`-th
being the last to start below the width, and gives their signed number modulo `2 ^ 64`. -/
theorem readSignedFrom_accepts {width k : Nat} (hw : width ≤ 64) (hk : 7 * (k - 1) < width)
    (hk' : width ≤ 7 * k) :
    Accepts (readSignedFrom width 0 0) k fun gs => (Int64.ofInt (groupsSigned gs)).toUInt64 where
  reads gs hg hlen := by
    have := hg.length_pos
    obtain ⟨v, hv, hval⟩ := readSignedFrom_groups hw hg 0 0 (by simp) (by omega)
    refine hv.congr rfl (eq_toUInt64_ofInt ?_)
    simpa using hval
  sound := (readSignedFrom_sound_groups width 0 0 (by omega)).mono fun _ l ⟨hg, hlen⟩ => by
    have := hg.length_pos
    exact ⟨hg, by omega⟩
  faults := readSignedFrom_faults width 0 0

theorem readS32_accepts : Accepts readS32 5 fun gs => Int32.ofInt (groupsSigned gs) := by
  unfold readS32
  rw [bind_pure_comp]
  refine ((@readSignedFrom_accepts 32 5 (by decide) (by decide) (by decide)).map
    fun w => w.toUInt32.toInt32).congr fun gs _ _ => ?_
  -- both are the low 32 bits of the number
  apply Int32.toBitVec_inj.mp
  apply BitVec.eq_of_toNat_eq
  simp only [Int32.toBitVec_ofInt, UInt32.toBitVec_toInt32, UInt64.toBitVec_toUInt32,
    Int64.toBitVec_toUInt64, Int64.toBitVec_ofInt, BitVec.toNat_setWidth, BitVec.toNat_ofInt]
  omega

theorem readS33_accepts : Accepts readS33 5 fun gs => Int64.ofInt (groupsSigned gs) := by
  unfold readS33
  rw [bind_pure_comp]
  exact ((@readSignedFrom_accepts 33 5 (by decide) (by decide) (by decide)).map UInt64.toInt64).congr
    fun gs _ _ => by simp

theorem readS64_accepts : Accepts readS64 10 fun gs => Int64.ofInt (groupsSigned gs) := by
  unfold readS64
  rw [bind_pure_comp]
  exact ((@readSignedFrom_accepts 64 10 (by decide) (by decide) (by decide)).map UInt64.toInt64).congr
    fun gs _ _ => by simp

/-- Five groups spell a number of 35 bits, which a 64-bit integer holds whole. -/
theorem toInt_ofInt_groupsSigned {gs : List UInt8} (hg : Groups gs) (hlen : gs.length ≤ 5) :
    (Int64.ofInt (groupsSigned gs)).toInt = groupsSigned gs := by
  obtain ⟨hlo, hhi⟩ := hg.signed_range
  have hbits : 7 * gs.length - 1 ≤ 34 := by omega
  have hpow : (2 : Int) ^ (7 * gs.length - 1) ≤ 2 ^ 34 := by
    have := Nat.pow_le_pow_right (by decide : 0 < 2) hbits
    exact_mod_cast this
  rw [Int64.toInt_ofInt]
  apply Int.bmod_eq_of_le <;> simp [Int64.size] <;> omega

/-- The LEB128 readers take the groups of one number, as many as their width needs at most, and
accept them whatever number they spell: unsigned numbers are cut to the width, signed numbers of
32 and 64 bits wrapped to it, and numbers read for 33 bits kept whole, all 35 bits of them.
Every other input is a fault at the end of the input or an overflow. -/
theorem leb128_readers_accept (b : ByteArray) :
    AcceptsOn readU32 5 (fun gs => UInt32.ofNat (groupsValue gs)) b ∧
    AcceptsOn readU64 10 (fun gs => UInt64.ofNat (groupsValue gs)) b ∧
    AcceptsOn readS32 5 (fun gs => Int32.ofInt (groupsSigned gs)) b ∧
    AcceptsOn readS33 5 (fun gs => Int64.ofInt (groupsSigned gs)) b ∧
    AcceptsOn readS64 10 (fun gs => Int64.ofInt (groupsSigned gs)) b ∧
    ∀ gs, Groups gs → gs.length ≤ 5 → (Int64.ofInt (groupsSigned gs)).toInt = groupsSigned gs :=
  ⟨readU32_accepts.acceptsOn b, readU64_accepts.acceptsOn b, readS32_accepts.acceptsOn b,
    readS33_accepts.acceptsOn b, readS64_accepts.acceptsOn b,
    fun _ hg hlen => toInt_ofInt_groupsSigned hg hlen⟩

/-- `ff ff ff ff 0f` spells `2 ^ 32 - 1`, no 32-bit signed number; the 32-bit signed reader takes
it all the same, as `-1`. -/
theorem readS32_accepts_out_of_range : groupsSigned [0xff, 0xff, 0xff, 0xff, 0x0f] = 2 ^ 32 - 1 ∧
    (readS32.run ⟨#[0xff, 0xff, 0xff, 0xff, 0x0f]⟩).1 = .ok (-1) := by
  constructor
  · decide
  · cbv

end WasmImage.Leb128
