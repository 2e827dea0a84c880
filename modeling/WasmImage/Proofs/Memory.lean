import WasmImage.Proofs.Build

/-!
# Memory images are bounded byte arrays

A memory image behaves as the list of its bytes under bounds-checked access. An access of `w`
bytes at `addr` succeeds exactly when `addr + w`, computed without wrapping, is within both the
memory and the 32-bit address space (`Fits`). A read then gives the bytes of the window
`addr .. addr + w`, or the little-endian number they hold; a write puts its data, or the
little-endian bytes of its value, in that window and keeps every other byte and the length; an
access that fails changes nothing.

The 64- and 128-bit reads are two reads of half the width, each with its own checks, and a check
that the second address does not wrap; together they succeed under the same condition as one
access of the full width (`readU64_ok`, `readU128_ok`).

Main statement: `MemImage.calls_refine`, for every image and every sequence of accesses.
-/

namespace WasmImage

namespace MemImage

/-! ## The bounded byte array -/

/-- The number whose little-endian bytes are `bytes`. -/
def leValue (bytes : List UInt8) : Nat :=
  bytes.foldr (fun b acc => b.toNat + 256 * acc) 0

/-- The `n` little-endian bytes of `v`, taken modulo `256 ^ n`. -/
def leBytes (n v : Nat) : List UInt8 :=
  (List.range n).map fun i => (v / 256 ^ i).toUInt8

/-- The `w` bytes from `addr`. -/
def window (l : List UInt8) (addr w : Nat) : List UInt8 :=
  (l.drop addr).take w

/-- `l` with the bytes from `addr` on replaced by `src`. -/
def overwrite (l : List UInt8) (addr : Nat) (src : List UInt8) : List UInt8 :=
  l.take addr ++ src ++ l.drop (addr + src.length)

/-- An access of `w` bytes at `addr` ends, without wrapping, within `len` bytes and within the
32-bit address space. -/
def Fits (len addr w : Nat) : Prop :=
  addr + w ≤ min len (2 ^ 32 - 1)

instance (len addr w : Nat) : Decidable (Fits len addr w) :=
  inferInstanceAs (Decidable (_ ≤ _))

@[simp] theorem leValue_nil : leValue [] = 0 := rfl

@[simp] theorem leValue_cons (b : UInt8) (bytes : List UInt8) :
    leValue (b :: bytes) = b.toNat + 256 * leValue bytes := rfl

theorem leValue_append (xs ys : List UInt8) :
    leValue (xs ++ ys) = leValue xs + 256 ^ xs.length * leValue ys := by
  induction xs with
  | nil => simp
  | cons x xs ih =>
    simp only [List.cons_append, leValue_cons, ih, List.length_cons, Nat.pow_succ]
    ring

theorem leValue_lt (bytes : List UInt8) : leValue bytes < 256 ^ bytes.length := by
  induction bytes with
  | nil => simp
  | cons b bytes ih =>
    have hb := b.toNat_lt
    simp only [leValue_cons, List.length_cons, Nat.pow_succ]
    omega

@[simp] theorem length_leBytes (n v : Nat) : (leBytes n v).length = n := by
  simp [leBytes]

theorem leBytes_succ (n v : Nat) :
    leBytes (n + 1) v = leBytes n v ++ [(v / 256 ^ n).toUInt8] := by
  simp [leBytes, List.range_succ]

/-- The bytes written for `v` read back as `v` modulo `256 ^ n`. -/
theorem leValue_leBytes (n v : Nat) : leValue (leBytes n v) = v % 256 ^ n := by
  induction n with
  | zero => simp [leBytes, Nat.mod_one]
  | succ n ih =>
    rw [leBytes_succ, leValue_append, ih, length_leBytes, Nat.pow_succ, Nat.mod_mul]
    simp [UInt8.toNat_ofNat']

theorem length_window {l : List UInt8} {addr w : Nat} (h : addr + w ≤ l.length) :
    (window l addr w).length = w := by
  simp [window]
  omega

theorem window_add (l : List UInt8) (addr n k : Nat) :
    window l addr (n + k) = window l addr n ++ window l (addr + n) k := by
  simp [window, List.take_add, List.drop_drop]

section Overwrite

variable {l src : List UInt8} {addr : Nat}

theorem length_overwrite (h : addr + src.length ≤ l.length) :
    (overwrite l addr src).length = l.length := by
  simp [overwrite]
  omega

/-- The window written holds what was written. -/
theorem window_overwrite (h : addr + src.length ≤ l.length) :
    window (overwrite l addr src) addr src.length = src := by
  have htake : (l.take addr).length = addr := by simp; omega
  simp [window, overwrite, List.drop_append_of_le_length (Nat.le_of_eq htake.symm)]

/-- Every byte outside the window written is kept. -/
theorem getElem?_overwrite (h : addr + src.length ≤ l.length) {i : Nat}
    (hi : i < addr ∨ addr + src.length ≤ i) : (overwrite l addr src)[i]? = l[i]? := by
  have htake : (l.take addr).length = addr := by simp; omega
  rcases hi with hi | hi
  · rw [overwrite, List.append_assoc, List.getElem?_append_left (by omega),
      List.getElem?_take_of_lt hi]
  · rw [overwrite, List.getElem?_append_right (by simp; omega), List.getElem?_drop]
    simp only [List.length_append, htake]
    congr 1
    omega

theorem overwrite_append_singleton {x : UInt8} (h : addr + src.length < l.length) :
    overwrite l addr (src ++ [x]) = (overwrite l addr src).set (addr + src.length) x := by
  have htake : (l.take addr).length = addr := by simp; omega
  have hdrop : l.drop (addr + src.length) = l[addr + src.length] :: l.drop (addr + src.length + 1) :=
    List.drop_eq_getElem_cons h
  simp only [overwrite, List.length_append, List.length_singleton, ← Nat.add_assoc]
  rw [List.set_append_right _ _ (by simp)]
  have hk : addr + src.length - (l.take addr ++ src).length = 0 := by simp; omega
  rw [hk, hdrop, List.set_cons_zero]
  simp

end Overwrite

/-! ## Images through their bytes -/

/-- The bytes of the image, as a list. -/
def contents (m : MemImage) : List UInt8 := m.bytes.data.toList

theorem len_eq_length (m : MemImage) : m.len = m.contents.length :=
  Array.length_toList.symm

theorem canRead_iff (m : MemImage) (addr size : UInt32) :
    m.canRead addr size = true ↔ Fits m.len addr.toNat size.toNat := by
  simp only [canRead, Bool.and_eq_true, decide_eq_true_eq, Fits]
  omega

/-- A check, then what follows it: the rest when the access fits, else the out-of-bounds fault
naming the image, the address, the size and the length. -/
theorem check_bind {β : Type} (m : MemImage) (phase : Phase) (addr size : UInt32)
    (f : Unit → Except Fault β) :
    (m.check phase addr size >>= f) =
      if Fits m.len addr.toNat size.toNat then f ()
      else .error (Fault.outOfBounds phase [m.label] addr.toNat size.toNat m.len) := by
  unfold check
  by_cases h : Fits m.len addr.toNat size.toNat
  · simp [(canRead_iff m addr size).mpr h, h]
    rfl
  · have hc : m.canRead addr size = false := by
      cases hc : m.canRead addr size
      · rfl
      · exact absurd ((canRead_iff m addr size).mp hc) h
    simp [hc, h]
    rfl

theorem loadLE_succ (m : MemImage) (addr n : Nat) :
    m.loadLE addr (n + 1) = (m.bytes[addr]?.getD 0).toNat + 256 * m.loadLE (addr + 1) n := by
  simp only [loadLE, List.range_succ_eq_map, List.foldr_cons, List.foldr_map, Nat.add_zero]
  rw [Nat.add_comm, Nat.mul_comm]
  congr 3
  funext i acc
  have hi : addr + i.succ = addr + 1 + i := by omega
  rw [hi]

/-- A load is the little-endian number of the window, bytes past the end counting as zero. -/
theorem loadLE_eq (m : MemImage) (addr n : Nat) :
    m.loadLE addr n = leValue (window m.contents addr n) := by
  induction n generalizing addr with
  | zero => simp [loadLE, window]
  | succ n ih =>
    rw [loadLE_succ, ih]
    have hget : m.bytes[addr]? = m.contents[addr]? := by
      rw [contents, Array.getElem?_toList]
      rfl
    simp only [window]
    by_cases hlt : addr < m.contents.length
    · rw [hget, List.getElem?_eq_getElem hlt, List.drop_eq_getElem_cons hlt]
      simp only [Option.getD_some, List.take_succ_cons, leValue_cons]
    · rw [hget, List.getElem?_eq_none (by omega), List.drop_eq_nil_of_le (by omega),
        List.drop_eq_nil_of_le (by omega)]
      simp

theorem contents_storeLE (m : MemImage) (addr : Nat) :
    ∀ n v, addr + n ≤ m.len → (m.storeLE addr n v).contents = overwrite m.contents addr (leBytes n v)
  | 0, v, _ => by simp [storeLE, contents, overwrite, leBytes]
  | n + 1, v, h => by
    -- the last byte is set after the first `n`
    have hstep : m.storeLE addr (n + 1) v =
        { m with bytes := (m.storeLE addr n v).bytes.set! (addr + n) (v / Nat.pow 256 n).toUInt8 } := by
      simp [storeLE, List.range_succ, List.foldl_append]
    have hrest := contents_storeLE m addr n v (by omega)
    have hlen := len_eq_length m
    rw [hstep, leBytes_succ, overwrite_append_singleton (by simp; omega), length_leBytes, ← hrest]
    simp [contents, ByteArray.set!]

/-! ## Reads and writes -/

theorem readU8_ok {m : MemImage} {addr : UInt32} (h : Fits m.len addr.toNat 1) :
    m.readU8 addr = .ok (leValue (window m.contents addr.toNat 1)).toUInt8 := by
  unfold readU8
  rw [check_bind, if_pos (show Fits m.len addr.toNat ((1 : UInt32)).toNat from h), loadLE_eq]
  rfl

theorem readU16_ok {m : MemImage} {addr : UInt32} (h : Fits m.len addr.toNat 2) :
    m.readU16 addr = .ok (leValue (window m.contents addr.toNat 2)).toUInt16 := by
  unfold readU16
  rw [check_bind, if_pos (show Fits m.len addr.toNat ((2 : UInt32)).toNat from h), loadLE_eq]
  rfl

theorem readU32_ok {m : MemImage} {addr : UInt32} (h : Fits m.len addr.toNat 4) :
    m.readU32 addr = .ok (leValue (window m.contents addr.toNat 4)).toUInt32 := by
  unfold readU32
  rw [check_bind, if_pos (show Fits m.len addr.toNat ((4 : UInt32)).toNat from h), loadLE_eq]
  rfl

theorem readU32_error {m : MemImage} {addr : UInt32} (h : ¬ Fits m.len addr.toNat 4) :
    m.readU32 addr = .error (Fault.outOfBounds .read [m.label] addr.toNat 4 m.len) := by
  unfold readU32
  rw [check_bind, if_neg (show ¬ Fits m.len addr.toNat ((4 : UInt32)).toNat from h)]
  rfl

/-- An address moved on by `d` does not wrap while the sum stays within 32 bits. -/
theorem toNat_add_of_lt {addr d : UInt32} (h : addr.toNat + d.toNat < 2 ^ 32) :
    (addr + d).toNat = addr.toNat + d.toNat := by
  rw [UInt32.toNat_add]
  exact Nat.mod_eq_of_lt h

/-- Two 32-bit halves, the second shifted up, make the number they spell. -/
theorem toNat_or_shiftLeft (lo hi : UInt32) :
    (lo.toUInt64 ||| hi.toUInt64 <<< 32).toNat = lo.toNat + 2 ^ 32 * hi.toNat := by
  have hlo := lo.toNat_lt
  have hhi := hi.toNat_lt
  have hshift : (hi.toUInt64 <<< 32).toNat = hi.toNat <<< 32 := by
    rw [UInt64.toNat_shiftLeft, UInt32.toNat_toUInt64]
    have h32 : (32 : UInt64).toNat % 64 = 32 := rfl
    rw [h32, Nat.shiftLeft_eq]
    exact Nat.mod_eq_of_lt (by omega)
  rw [UInt64.toNat_or, hshift, UInt32.toNat_toUInt64, Nat.lor_comm,
    ← Nat.shiftLeft_add_eq_or_of_lt hlo, Nat.shiftLeft_eq]
  omega

/-- A window of `k + k` fitting bytes is its two halves. -/
theorem leValue_window_halves {l : List UInt8} {addr k : Nat} (h : addr + (k + k) ≤ l.length) :
    leValue (window l addr (k + k)) =
      leValue (window l addr k) + 256 ^ k * leValue (window l (addr + k) k) := by
  rw [window_add, leValue_append, length_window (by omega)]

/-- The little-endian number of a window of at most `n` bytes survives a cast to `n` bytes. -/
theorem leValue_window_lt (l : List UInt8) (addr n : Nat) : leValue (window l addr n) < 256 ^ n :=
  Nat.lt_of_lt_of_le (leValue_lt _)
    (Nat.pow_le_pow_right (by decide) (by simp [window]))

/-- The 64-bit read succeeds when eight bytes fit: then both halves fit, and the second address
does not wrap. -/
theorem readU64_ok {m : MemImage} {addr : UInt32} (h : Fits m.len addr.toNat 8) :
    m.readU64 addr = .ok (leValue (window m.contents addr.toNat 8)).toUInt64 := by
  have hlo : Fits m.len addr.toNat 4 := by unfold Fits at *; omega
  have hnext : (addr + 4).toNat = addr.toNat + 4 :=
    toNat_add_of_lt (by unfold Fits at h; simp only [UInt32.reduceToNat]; omega)
  have hhi : Fits m.len (addr + 4).toNat 4 := by rw [hnext]; unfold Fits at *; omega
  have hwrap : ¬ addr.toNat + 4 > 4294967295 := by unfold Fits at h; omega
  unfold readU64
  rw [readU32_ok hlo, ok_bind]
  simp only [hwrap, if_false, readU32_ok hhi, ok_bind, hnext]
  -- the halves spell the window of eight bytes
  apply congrArg Except.ok
  apply UInt64.toNat_inj.mp
  have hlen : addr.toNat + (4 + 4) ≤ m.contents.length := by
    rw [← len_eq_length]; unfold Fits at h; omega
  have h4 := leValue_window_lt m.contents addr.toNat 4
  have h4' := leValue_window_lt m.contents (addr.toNat + 4) 4
  have h8 := leValue_window_lt m.contents addr.toNat 8
  rw [toNat_or_shiftLeft, UInt32.toNat_ofNat', UInt32.toNat_ofNat', UInt64.toNat_ofNat',
    leValue_window_halves hlen]
  simp only [Nat.reducePow] at *
  omega

theorem readU64_error {m : MemImage} {addr : UInt32} (h : ¬ Fits m.len addr.toNat 8) :
    ∃ e, m.readU64 addr = .error e := by
  unfold readU64
  by_cases hlo : Fits m.len addr.toNat 4
  · have hnext : (addr + 4).toNat = addr.toNat + 4 :=
      toNat_add_of_lt (by unfold Fits at hlo; simp only [UInt32.reduceToNat]; omega)
    have hhi : ¬ Fits m.len (addr + 4).toNat 4 := by rw [hnext]; unfold Fits at *; omega
    have hwrap : ¬ addr.toNat + 4 > 4294967295 := by unfold Fits at hlo; omega
    rw [readU32_ok hlo, ok_bind]
    simp only [hwrap, if_false, readU32_error hhi]
    exact ⟨_, rfl⟩
  · rw [readU32_error hlo]
    exact ⟨_, rfl⟩

/-- The 128-bit read succeeds when sixteen bytes fit, by the same argument one width up. -/
theorem readU128_ok {m : MemImage} {addr : UInt32} (h : Fits m.len addr.toNat 16) :
    m.readU128 addr = .ok (leValue (window m.contents addr.toNat 16)) := by
  have hlo : Fits m.len addr.toNat 8 := by unfold Fits at *; omega
  have hnext : (addr + 8).toNat = addr.toNat + 8 :=
    toNat_add_of_lt (by unfold Fits at h; simp only [UInt32.reduceToNat]; omega)
  have hhi : Fits m.len (addr + 8).toNat 8 := by rw [hnext]; unfold Fits at *; omega
  have hwrap : ¬ addr.toNat + 8 > 4294967295 := by unfold Fits at h; omega
  unfold readU128
  rw [readU64_ok hlo, ok_bind]
  simp only [hwrap, if_false, readU64_ok hhi, ok_bind, hnext]
  apply congrArg Except.ok
  have hlen : addr.toNat + (8 + 8) ≤ m.contents.length := by
    rw [← len_eq_length]; unfold Fits at h; omega
  have h8 := leValue_window_lt m.contents addr.toNat 8
  have h8' := leValue_window_lt m.contents (addr.toNat + 8) 8
  rw [UInt64.toNat_ofNat', UInt64.toNat_ofNat', leValue_window_halves hlen]
  simp only [Nat.reducePow, Nat.pow_eq] at *
  omega

theorem readU128_error {m : MemImage} {addr : UInt32} (h : ¬ Fits m.len addr.toNat 16) :
    ∃ e, m.readU128 addr = .error e := by
  unfold readU128
  by_cases hlo : Fits m.len addr.toNat 8
  · have hnext : (addr + 8).toNat = addr.toNat + 8 :=
      toNat_add_of_lt (by unfold Fits at hlo; simp only [UInt32.reduceToNat]; omega)
    have hhi : ¬ Fits m.len (addr + 8).toNat 8 := by rw [hnext]; unfold Fits at *; omega
    have hwrap : ¬ addr.toNat + 8 > 4294967295 := by unfold Fits at hlo; omega
    obtain ⟨e, he⟩ := readU64_error hhi
    rw [readU64_ok hlo, ok_bind]
    simp only [hwrap, if_false, he]
    exact ⟨_, rfl⟩
  · obtain ⟨e, he⟩ := readU64_error hlo
    rw [he]
    exact ⟨_, rfl⟩

theorem contents_extract (m : MemImage) (addr n : Nat) :
    (m.bytes.extract addr (addr + n)).data.toList = window m.contents addr n := by
  simp [ByteArray.extract, ByteArray.copySlice, contents, window, Array.toList_extract,
    List.extract_eq_take_drop]

theorem read_ok {m : MemImage} {addr len : UInt32} (h : Fits m.len addr.toNat len.toNat) :
    m.read addr len = .ok (m.bytes.extract addr.toNat (addr.toNat + len.toNat)) := by
  unfold read
  rw [check_bind, if_pos h]
  rfl

theorem read_error {m : MemImage} {addr len : UInt32} (h : ¬ Fits m.len addr.toNat len.toNat) :
    m.read addr len = .error (Fault.outOfBounds .read [m.label] addr.toNat len.toNat m.len) := by
  unfold read
  rw [check_bind, if_neg h]

theorem contents_copySlice (m : MemImage) (data : ByteArray) (addr : Nat) :
    (data.copySlice 0 m.bytes addr data.size).data.toList =
      overwrite m.contents addr data.data.toList := by
  have hsize : data.data.toList.length = data.size := Array.length_toList
  simp only [ByteArray.copySlice, Array.toList_append, Array.toList_extract,
    List.extract_eq_take_drop, overwrite, contents, hsize]
  have hd : data.data.size = data.size := rfl
  have hm : m.bytes.data.size = m.bytes.data.toList.length := Array.length_toList.symm
  simp only [Nat.sub_zero, List.drop_zero, Nat.zero_add, hd, Nat.min_self, hm]
  have hrest : (m.bytes.data.toList.drop (addr + data.size)).length ≤
      m.bytes.data.toList.length - (addr + data.size) := by simp
  rw [List.take_of_length_le (Nat.le_of_eq hsize), List.take_of_length_le hrest]

/-- A write of data longer than the 32-bit address space is refused before any check; such data
never fits anyway, so the write succeeds exactly when its bytes fit. -/
theorem write_ok {m : MemImage} {addr : UInt32} {data : ByteArray}
    (h : Fits m.len addr.toNat data.size) :
    m.write addr data = .ok { m with bytes := data.copySlice 0 m.bytes addr.toNat data.size } := by
  have hsmall : ¬ data.size > 0xffffffff := by unfold Fits at h; omega
  have hsize : data.size.toUInt32.toNat = data.size := by
    rw [Nat.toUInt32, UInt32.toNat_ofNat']; unfold Fits at h; omega
  unfold write
  simp only [hsmall, if_false]
  rw [check_bind, if_pos (by rw [hsize]; exact h)]
  rfl

theorem write_error {m : MemImage} {addr : UInt32} {data : ByteArray}
    (h : ¬ Fits m.len addr.toNat data.size) : ∃ e, m.write addr data = .error e := by
  unfold write
  by_cases hsmall : data.size > 0xffffffff
  · simp only [hsmall, if_true]
    exact ⟨_, rfl⟩
  · have hsize : data.size.toUInt32.toNat = data.size := by
      rw [Nat.toUInt32, UInt32.toNat_ofNat']; omega
    simp only [hsmall, if_false]
    rw [check_bind, if_neg (by rw [hsize]; exact h)]
    exact ⟨_, rfl⟩

end MemImage

/-! ## Sized writes -/

namespace SizedWrite

def addr : SizedWrite → UInt32
  | .u8 a _ | .u16 a _ | .u32 a _ | .u64 a _ => a

/-- How many bytes the write stores. -/
def width : SizedWrite → Nat
  | .u8 .. => 1
  | .u16 .. => 2
  | .u32 .. => 4
  | .u64 .. => 8

/-- The number whose bytes the write stores. -/
def value : SizedWrite → Nat
  | .u8 _ x => x.toNat
  | .u16 _ x => x.toNat
  | .u32 _ x => x.toNat
  | .u64 _ x => x.toNat

open MemImage in
/-- Every width checks its bytes, then stores the little-endian bytes of its value. -/
theorem apply_eq (w : SizedWrite) (m : MemImage) :
    w.apply m =
      if Fits m.len w.addr.toNat w.width then .ok (m.storeLE w.addr.toNat w.width w.value)
      else .error (Fault.outOfBounds .write [m.label] w.addr.toNat w.width m.len) := by
  cases w <;> simp only [apply, writeU8, writeU16, writeU32, writeU64, check_bind] <;> rfl

end SizedWrite

/-! ## Calls on an image and on its bytes -/

/-- A call of the image's interface: reads of the bytes or of a little-endian number, writes of
bytes or of a little-endian number. -/
inductive Access where
  | read (addr len : UInt32)
  | readU8 (addr : UInt32)
  | readU16 (addr : UInt32)
  | readU32 (addr : UInt32)
  | readU64 (addr : UInt32)
  | readU128 (addr : UInt32)
  | write (addr : UInt32) (data : ByteArray)
  | store (w : SizedWrite)

/-- What a call that succeeds gives back. -/
inductive Answer where
  | bytes (data : List UInt8)
  | num (value : Nat)
  | done
  deriving DecidableEq, Repr

namespace Access

def addr : Access → UInt32
  | .read a _ | .readU8 a | .readU16 a | .readU32 a | .readU64 a | .readU128 a | .write a _ => a
  | .store w => w.addr

/-- How many bytes the call reads or writes. -/
def width : Access → Nat
  | .read _ len => len.toNat
  | .readU8 _ => 1
  | .readU16 _ => 2
  | .readU32 _ => 4
  | .readU64 _ => 8
  | .readU128 _ => 16
  | .write _ data => data.size
  | .store w => w.width

open MemImage

/-- The answer of a call within bounds, on bytes `l`: the window's bytes for a plain read, its
little-endian number for a sized read. -/
def answer (a : Access) (l : List UInt8) : Answer :=
  match a with
  | .read .. => .bytes (window l a.addr.toNat a.width)
  | .write .. | .store _ => .done
  | _ => .num (leValue (window l a.addr.toNat a.width))

/-- The bytes after a call within bounds: a write puts its data, or the little-endian bytes of
its value, in the window. -/
def update (a : Access) (l : List UInt8) : List UInt8 :=
  match a with
  | .write addr data => overwrite l addr.toNat data.data.toList
  | .store w => overwrite l w.addr.toNat (leBytes w.width w.value)
  | _ => l

/-- The call on a bounded byte array: it succeeds exactly when its window fits, and a call that
fails leaves the bytes as they were. -/
def onBytes (a : Access) (l : List UInt8) : Option Answer × List UInt8 :=
  if Fits l.length a.addr.toNat a.width then (some (a.answer l), a.update l) else (none, l)

/-- Calls one after another on a bounded byte array. -/
def runOnBytes (l : List UInt8) : List Access → List (Option Answer) × List UInt8
  | [] => ([], l)
  | a :: as =>
    let (r, l₁) := a.onBytes l
    let (rs, l₂) := runOnBytes l₁ as
    (r :: rs, l₂)

/-- A call keeps the number of bytes. -/
theorem length_onBytes (a : Access) (l : List UInt8) : (a.onBytes l).2.length = l.length := by
  unfold onBytes
  split
  · rename_i h
    have hfit : a.addr.toNat + a.width ≤ l.length := by unfold Fits at h; omega
    cases a <;> simp only [update] <;> first
      | rfl
      | exact length_overwrite (by simpa only [width, addr, length_leBytes, Array.length_toList,
          ByteArray.size] using hfit)
  · rfl

end Access

namespace MemImage

/-- The call on an image: its answer and the image after it, or the fault. -/
def perform (m : MemImage) : Access → Except Fault (Answer × MemImage)
  | .read addr len => (m.read addr len).map fun b => (.bytes b.data.toList, m)
  | .readU8 addr => (m.readU8 addr).map fun x => (.num x.toNat, m)
  | .readU16 addr => (m.readU16 addr).map fun x => (.num x.toNat, m)
  | .readU32 addr => (m.readU32 addr).map fun x => (.num x.toNat, m)
  | .readU64 addr => (m.readU64 addr).map fun x => (.num x.toNat, m)
  | .readU128 addr => (m.readU128 addr).map fun x => (.num x, m)
  | .write addr data => (m.write addr data).map fun m' => (.done, m')
  | .store w => (w.apply m).map fun m' => (.done, m')

/-- A call as the holder of the image sees it: the answer, or none on a fault, and the image after
it, which a fault leaves as it was. -/
def call (m : MemImage) (a : Access) : Option Answer × MemImage :=
  match m.perform a with
  | .ok (r, m') => (some r, m')
  | .error _ => (none, m)

/-- Calls one after another. -/
def calls (m : MemImage) : List Access → List (Option Answer) × MemImage
  | [] => ([], m)
  | a :: as =>
    let (r, m₁) := m.call a
    let (rs, m₂) := m₁.calls as
    (r :: rs, m₂)

section Refinement

variable {m : MemImage} {a : Access}

/-- A call whose window fits answers as on the bytes, updates them as on the bytes, and keeps the
label. -/
theorem perform_of_fits (h : Fits m.len a.addr.toNat a.width) :
    ∃ m', m.perform a = .ok (a.answer m.contents, m') ∧ m'.contents = a.update m.contents ∧
      m'.label = m.label := by
  -- each sized read's number is below the width it is cast to
  have hw (addr n : Nat) : leValue (window m.contents addr n) < 256 ^ n := leValue_window_lt _ _ _
  cases a with
  | read addr len =>
    have h' : Fits m.len addr.toNat len.toNat := h
    refine ⟨m, ?_, rfl, rfl⟩
    simp only [perform, read_ok h', Except.map, contents_extract]
    rfl
  | readU8 addr =>
    have h' : Fits m.len addr.toNat 1 := h
    have hlt : leValue (window m.contents addr.toNat 1) < 2 ^ 8 := hw _ 1
    refine ⟨m, ?_, rfl, rfl⟩
    simp only [perform, readU8_ok h', Except.map, Access.answer, Access.width, Access.addr,
      Nat.toUInt8, UInt8.toNat_ofNat', Nat.mod_eq_of_lt hlt]
  | readU16 addr =>
    have h' : Fits m.len addr.toNat 2 := h
    have hlt : leValue (window m.contents addr.toNat 2) < 2 ^ 16 := hw _ 2
    refine ⟨m, ?_, rfl, rfl⟩
    simp only [perform, readU16_ok h', Except.map, Access.answer, Access.width, Access.addr,
      Nat.toUInt16, UInt16.toNat_ofNat', Nat.mod_eq_of_lt hlt]
  | readU32 addr =>
    have h' : Fits m.len addr.toNat 4 := h
    have hlt : leValue (window m.contents addr.toNat 4) < 2 ^ 32 := hw _ 4
    refine ⟨m, ?_, rfl, rfl⟩
    simp only [perform, readU32_ok h', Except.map, Access.answer, Access.width, Access.addr,
      Nat.toUInt32, UInt32.toNat_ofNat', Nat.mod_eq_of_lt hlt]
  | readU64 addr =>
    have h' : Fits m.len addr.toNat 8 := h
    have hlt : leValue (window m.contents addr.toNat 8) < 2 ^ 64 := hw _ 8
    refine ⟨m, ?_, rfl, rfl⟩
    simp only [perform, readU64_ok h', Except.map, Access.answer, Access.width, Access.addr,
      Nat.toUInt64, UInt64.toNat_ofNat', Nat.mod_eq_of_lt hlt]
  | readU128 addr =>
    have h' : Fits m.len addr.toNat 16 := h
    refine ⟨m, ?_, rfl, rfl⟩
    simp only [perform, readU128_ok h', Except.map, Access.answer, Access.width, Access.addr]
  | write addr data =>
    have h' : Fits m.len addr.toNat data.size := h
    refine ⟨{ m with bytes := data.copySlice 0 m.bytes addr.toNat data.size }, ?_,
      contents_copySlice m data addr.toNat, rfl⟩
    simp only [perform, write_ok h', Except.map, Access.answer]
  | store w =>
    have h' : Fits m.len w.addr.toNat w.width := h
    have hfit : w.addr.toNat + w.width ≤ m.len := le_trans h' (min_le_left _ _)
    refine ⟨m.storeLE w.addr.toNat w.width w.value, ?_,
      contents_storeLE m w.addr.toNat w.width w.value hfit, rfl⟩
    simp only [perform, SizedWrite.apply_eq, if_pos h', Except.map, Access.answer]

theorem perform_of_not_fits (h : ¬ Fits m.len a.addr.toNat a.width) :
    ∃ e, m.perform a = .error e := by
  cases a with
  | read addr len =>
    have h' : ¬ Fits m.len addr.toNat len.toNat := h
    exact ⟨_, by simp only [perform, read_error h', Except.map]; rfl⟩
  | readU8 addr =>
    have h' : ¬ Fits m.len addr.toNat ((1 : UInt32)).toNat := h
    exact ⟨_, by simp only [perform, readU8, check_bind, if_neg h', Except.map]; rfl⟩
  | readU16 addr =>
    have h' : ¬ Fits m.len addr.toNat ((2 : UInt32)).toNat := h
    exact ⟨_, by simp only [perform, readU16, check_bind, if_neg h', Except.map]; rfl⟩
  | readU32 addr =>
    have h' : ¬ Fits m.len addr.toNat 4 := h
    exact ⟨_, by simp only [perform, readU32_error h', Except.map]; rfl⟩
  | readU64 addr =>
    obtain ⟨e, he⟩ := readU64_error (show ¬ Fits m.len addr.toNat 8 from h)
    exact ⟨e, by simp only [perform, he, Except.map]⟩
  | readU128 addr =>
    obtain ⟨e, he⟩ := readU128_error (show ¬ Fits m.len addr.toNat 16 from h)
    exact ⟨e, by simp only [perform, he, Except.map]⟩
  | write addr data =>
    obtain ⟨e, he⟩ := write_error (show ¬ Fits m.len addr.toNat data.size from h)
    exact ⟨e, by simp only [perform, he, Except.map]⟩
  | store w =>
    have h' : ¬ Fits m.len w.addr.toNat w.width := h
    exact ⟨_, by simp only [perform, SizedWrite.apply_eq, if_neg h', Except.map]; rfl⟩

/-- One call on an image is the call on its bytes, and keeps the image's label. -/
theorem call_refine (m : MemImage) (a : Access) :
    ((m.call a).1, (m.call a).2.contents) = a.onBytes m.contents ∧ (m.call a).2.label = m.label := by
  unfold Access.onBytes
  by_cases h : Fits m.len a.addr.toNat a.width
  · obtain ⟨m', hm, hc, hl⟩ := perform_of_fits h
    rw [if_pos (len_eq_length m ▸ h)]
    simp only [call, hm, hc, hl, and_self]
  · obtain ⟨e, he⟩ := perform_of_not_fits h
    rw [if_neg (len_eq_length m ▸ h)]
    simp only [call, he, and_self]

end Refinement

/-- A memory image refines a bounded byte array: whatever calls are made one after another, the
answers and the bytes after them are those of the same calls on the image's bytes, where a call
succeeds exactly when its window fits, reads the window's bytes or little-endian number, writes
the window alone, and changes nothing when it fails; the label never changes. -/
theorem calls_refine (m : MemImage) (as : List Access) :
    ((m.calls as).1, (m.calls as).2.contents) = Access.runOnBytes m.contents as ∧
      (m.calls as).2.label = m.label := by
  induction as generalizing m with
  | nil => exact ⟨rfl, rfl⟩
  | cons a as ih =>
    -- the first call moves image and bytes alike; the rest follows from it
    obtain ⟨hstep, hlabel⟩ := call_refine m a
    obtain ⟨hrest, hlabel'⟩ := ih (m.call a).2
    simp only [calls, Access.runOnBytes, ← hstep, ← hrest, hlabel', hlabel, and_self]

end MemImage

end WasmImage
