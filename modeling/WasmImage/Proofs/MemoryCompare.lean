import WasmImage.Verify
import WasmImage.Proofs.Loops
import WasmImage.Proofs.Memory
import WasmImage.Proofs.Writing

/-!
# Comparing memories

`Verify.compareMemory` reads its two memories in chunks of 64 KiB and stops at the first byte that
differs. Over memories that show their bytes (`MemoryView.Shows`) it decides whether the bytes are
equal, and when they are not it names the smallest address where they differ: the chunks cover
the addresses below the size once each and in order (`flatMap_chunkAddrs`), so the first
difference of the first chunk that has one is the first difference of all.
-/

namespace WasmImage

/-- `m` shows the bytes `bs`: it has their size, and reading a range of them returns that range. -/
def MemoryView.Shows (m : MemoryView) (bs : ByteArray) : Prop :=
  m.size = bs.size ∧ ∀ off n, off + n ≤ bs.size → m.read off n = .ok (bs.extract off (off + n))

/-- An image memory shows its bytes below its saturated size. -/
theorem MemImage.view_shows (m : MemImage) : m.view.Shows (m.bytes.extract 0 m.size.toNat) := by
  have hsize : m.size.toNat = min m.len 0xffffffff := by
    unfold MemImage.size
    exact Writer.toNat_toUInt32_of_lt (by omega)
  have hlen : (m.bytes.extract 0 m.size.toNat).size = m.size.toNat := by
    rw [ByteArray.size_extract, hsize]
    unfold MemImage.len
    omega
  refine ⟨hlen.symm, fun off n hend => ?_⟩
  rw [hlen, hsize] at hend
  have hoff : off.toUInt32.toNat = off := Writer.toNat_toUInt32_of_lt (by omega)
  have hn : n.toUInt32.toNat = n := Writer.toNat_toUInt32_of_lt (by omega)
  show m.read off.toUInt32 n.toUInt32 = _
  rw [MemImage.read, MemImage.check_bind, if_pos (by unfold MemImage.Fits; omega), hoff, hn,
    ByteArray.extract_extract, Nat.zero_add, Nat.zero_add, Nat.min_eq_left (by omega)]
  rfl

/-- An image memory of at most `2^32 - 1` bytes shows all of them. -/
theorem MemImage.view_shows_bytes {m : MemImage} (h : m.len ≤ 0xffffffff) : m.view.Shows m.bytes := by
  have hall : m.bytes.extract 0 m.size.toNat = m.bytes := by
    have hsize : m.size.toNat = m.len := by
      unfold MemImage.size
      rw [Nat.min_eq_left h]
      exact Writer.toNat_toUInt32_of_lt (by omega)
    rw [hsize, MemImage.len, ByteArray.extract_zero_size]
  simpa only [hall] using m.view_shows

/-! ## Loops that stop at the first failure -/

section FirstFailure

variable {ε α β : Type}

/-- A loop with no state whose step at `a` fails with `e b` when `f a = some b`, and goes on when
`f a = none`, fails with the first such `b`. -/
theorem forIn'_findSome {f : α → Option β} {e : β → ε} :
    ∀ (l : List α) (g : (a : α) → a ∈ l → PUnit → Except ε (ForInStep PUnit)),
      (∀ a h, g a h ⟨⟩ = (f a).elim (.ok (.yield ⟨⟩)) (.error ∘ e)) →
      forIn' l ⟨⟩ g = (l.findSome? f).elim (.ok ⟨⟩) (.error ∘ e)
  | [], _, _ => rfl
  | a :: l, g, hg => by
    rw [List.forIn'_cons, hg, List.findSome?_cons]
    cases f a with
    | some b => rfl
    | none => exact forIn'_findSome l _ fun a' h' => hg a' _

theorem forIn_findSome {f : α → Option β} {e : β → ε} (l : List α)
    (g : α → PUnit → Except ε (ForInStep PUnit))
    (hg : ∀ a ∈ l, g a ⟨⟩ = (f a).elim (.ok (.yield ⟨⟩)) (.error ∘ e)) :
    forIn l ⟨⟩ g = (l.findSome? f).elim (.ok ⟨⟩) (.error ∘ e) :=
  forIn'_findSome l (fun a _ => g a) hg

@[simp] theorem range'_of_range (n : Nat) :
    List.range' [:n].start [:n].size [:n].step = List.range n := by
  simp [Std.Legacy.Range.size, List.range_eq_range']

/-- `forIn_findSome` over the indices below `n`. -/
theorem forIn_range_findSome {f : Nat → Option β} {e : β → ε} (n : Nat)
    (g : Nat → PUnit → Except ε (ForInStep PUnit))
    (hg : ∀ i < n, g i ⟨⟩ = (f i).elim (.ok (.yield ⟨⟩)) (.error ∘ e)) :
    forIn [:n] ⟨⟩ g = ((List.range n).findSome? f).elim (.ok ⟨⟩) (.error ∘ e) := by
  rw [Std.Legacy.Range.forIn_eq_forIn_range', range'_of_range]
  exact forIn_findSome _ g fun i hi => hg i (List.mem_range.mp hi)

/-- `forIn'_findSome` over the indices below `n`, a step seeing that its index is one. -/
theorem forIn'_range_find {p : Nat → Bool} {e : Nat → ε} (n : Nat)
    (g : (i : Nat) → i ∈ [:n] → PUnit → Except ε (ForInStep PUnit))
    (hg : ∀ i h, g i h ⟨⟩ = if p i then .error (e i) else .ok (.yield ⟨⟩)) :
    forIn' [:n] ⟨⟩ g = ((List.range n).find? p).elim (.ok ⟨⟩) (.error ∘ e) := by
  have hguard : ∀ i h, g i h ⟨⟩ = (Option.guard p i).elim (.ok (.yield ⟨⟩)) (.error ∘ e) := by
    intro i h
    rw [hg, Option.guard]
    cases p i <;> rfl
  rw [Std.Legacy.Range.forIn'_eq_forIn'_range', List.find?_eq_findSome?_guard,
    forIn'_findSome _ _ fun i h => hguard i _, range'_of_range]

/-- The outcome of a search, then a value. -/
theorem elim_bind_pure {γ δ : Type} (o : Option γ) (e : γ → ε) (y : δ) :
    ((o.elim (.ok ⟨⟩) (.error ∘ e) : Except ε PUnit) >>= fun _ => pure y) =
      o.elim (.ok y) (.error ∘ e) := by
  cases o <;> rfl

end FirstFailure

namespace Verify

/-! ## Chunks -/

/-- The addresses in chunk `k` of `c` bytes of a memory of `size` bytes. -/
def chunkAddrs (c size k : Nat) : List Nat :=
  if k * c < size then List.range' (k * c) (min c (size - k * c)) else []

/-- The first `m` chunks cover the addresses below `m` chunks' worth of bytes and below the size. -/
theorem flatMap_chunkAddrs_range (c size : Nat) :
    ∀ m, (List.range m).flatMap (chunkAddrs c size) = List.range (min size (m * c))
  | 0 => by simp
  | m + 1 => by
    rw [List.range_succ, List.flatMap_append, flatMap_chunkAddrs_range c size m,
      List.flatMap_singleton, Nat.succ_mul]
    unfold chunkAddrs
    split
    · rw [List.range'_eq_map_range, show min size (m * c) = m * c by omega, ← List.range_add]
      congr 1
      omega
    · rw [List.append_nil]
      congr 1
      omega

/-- The chunks of a memory cover its addresses, each once and in order. -/
theorem flatMap_chunkAddrs (size : Nat) :
    (List.range (size / chunk + 1)).flatMap (chunkAddrs chunk size) = List.range size := by
  rw [flatMap_chunkAddrs_range]
  congr 1
  have hlt := Nat.lt_mul_div_succ size (show 0 < chunk by decide)
  rw [Nat.mul_comm] at hlt
  omega

/-! ## Bytes -/

theorem getElem?_extract {bs : ByteArray} {off stop i : Nat} (h : off + i < stop) :
    (bs.extract off stop)[i]? = bs[off + i]? := by
  simp only [getElem?_def, ByteArray.size_extract, ByteArray.getElem_extract]
  split_ifs <;> first | rfl | omega

theorem data_getElem? (bs : ByteArray) (a : Nat) : bs.data[a]? = bs[a]? := by
  simp [getElem?_def, ByteArray.getElem_eq_getElem_data]

/-- Byte arrays with the same byte, or none, at every address are equal. -/
theorem byteArray_ext {A B : ByteArray} (h : ∀ a : Nat, A[a]? = B[a]?) : A = B := by
  apply ByteArray.ext
  apply Array.ext_getElem?
  intro a
  rw [data_getElem?, data_getElem?, h]

/-! ## The comparison -/

/-- Whether `want` and `got` differ at address `a`. -/
def differsAt (want got : ByteArray) (a : Nat) : Bool := want[a]? != got[a]?

/-- The fault of a first difference at `a`: the byte `got` has there, then the byte `want` has. -/
def byteMismatch (label : String) (want got : ByteArray) (a : Nat) : Fault :=
  { phase := .verify, kind := .mismatch, path := [label],
    detail := "byte at 0x" ++ Hex.ofNat a ++ " is 0x" ++ hex2 (got[a]?.getD 0) ++
      ", image has 0x" ++ hex2 (want[a]?.getD 0) }

/-- The fault of memories whose sizes differ: the size of `got`, then that of `want`. -/
def sizeMismatch (label : String) (want got : Nat) : Fault :=
  { phase := .verify, kind := .mismatch, path := [label],
    detail := "size 0x" ++ Hex.ofNat got ++ ", image has 0x" ++ Hex.ofNat want }

theorem compareMemory_eq {want got : MemoryView} {A B : ByteArray} (hA : want.Shows A)
    (hB : got.Shows B) (label : String) :
    compareMemory label want got =
      if B.size = A.size then
        ((List.range A.size).find? (differsAt A B)).elim (.ok ()) (.error ∘ byteMismatch label A B)
      else .error (sizeMismatch label A.size B.size) := by
  unfold compareMemory
  rw [hA.1, hB.1]
  by_cases hsize : B.size = A.size
  case neg =>
    rw [if_neg hsize, if_pos (by simpa using hsize)]
    rfl
  case pos =>
    rw [if_pos hsize, if_neg (by simp [hsize])]
    dsimp only
    rw [forIn_range_findSome (f := fun k => (chunkAddrs chunk A.size k).find? (differsAt A B))
      (e := byteMismatch label A B) _ _ fun k hk => ?_]
    · rw [elim_bind_pure, ← flatMap_chunkAddrs A.size, List.find?_flatMap]
    · unfold chunkAddrs
      split_ifs with hk
      case neg => rfl
      case pos =>
      -- the chunk's offset and length, and the bytes read there
      generalize hoff : k * chunk = off at hk ⊢
      generalize hn : min chunk (A.size - off) = n
      have hend : off + n ≤ A.size := by omega
      rw [hA.2 _ _ hend, hB.2 _ _ (by omega), ok_bind, ok_bind]
      have hlen : (A.extract off (off + n)).size = n := by
        rw [ByteArray.size_extract]
        omega
      rw [forIn'_range_find (p := fun i => differsAt A B (off + i))
        (e := fun i => byteMismatch label A B (off + i)) _ _ fun i h => ?_]
      · rw [elim_bind_pure, hlen, List.range'_eq_map_range, List.find?_map, Option.elim_map]
        rfl
      · -- both bytes exist: the step tests the bytes at `off + i` of the whole memories
        have hi : i < n := by simpa [hlen] using h.upper
        have hiA : off + i < A.size := by omega
        have hiB : off + i < B.size := by omega
        have ha : (A.extract off (off + n))[i] = A[off + i] := by
          rw [ByteArray.getElem_extract]
        rw [ha, getElem?_extract (by omega : off + i < off + n), getElem?_pos B (off + i) hiB,
          Option.getD_some]
        unfold differsAt byteMismatch
        rw [getElem?_pos A (off + i) hiA, getElem?_pos B (off + i) hiB]
        by_cases hab : A[off + i] = B[off + i] <;> simp [hab] <;> rfl

/-- Comparing memories that show the bytes `A` and `B` succeeds exactly when the bytes are equal.
When the sizes differ it reports the size of `got` and that of `want`; otherwise it reports the
smallest address where the bytes differ, with the byte `got` has there and the byte `want` has. -/
theorem compareMemory_first_difference {want got : MemoryView} {A B : ByteArray}
    (hA : want.Shows A) (hB : got.Shows B) (label : String) :
    (compareMemory label want got = .ok () ↔ A = B) ∧
    (B.size ≠ A.size → compareMemory label want got =
      .error { phase := .verify, kind := .mismatch, path := [label],
               detail := "size 0x" ++ Hex.ofNat B.size ++ ", image has 0x" ++ Hex.ofNat A.size }) ∧
    ∀ a x y, B.size = A.size → A[a]? = some x → B[a]? = some y → x ≠ y →
      (∀ a' < a, A[a']? = B[a']?) →
      compareMemory label want got =
        .error { phase := .verify, kind := .mismatch, path := [label],
                 detail := "byte at 0x" ++ Hex.ofNat a ++ " is 0x" ++ hex2 y ++
                   ", image has 0x" ++ hex2 x } := by
  rw [compareMemory_eq hA hB]
  refine ⟨⟨fun h => ?_, ?_⟩, fun hne => by rw [if_neg hne]; rfl, ?_⟩
  case refine_1 =>
    -- success needs equal sizes and no address below them where the bytes differ
    split_ifs at h with hsize
    cases hfind : (List.range A.size).find? (differsAt A B) with
    | some a =>
      rw [hfind] at h
      cases h
    | none =>
      apply byteArray_ext
      intro a
      by_cases ha : a < A.size
      · have hsame := List.find?_eq_none.mp hfind a (List.mem_range.mpr ha)
        simpa [differsAt] using hsame
      · rw [getElem?_neg A a ha, getElem?_neg B a (by omega)]
  case refine_2 =>
    rintro rfl
    rw [if_pos rfl, List.find?_eq_none.mpr fun a _ => by simp [differsAt]]
    rfl
  case refine_3 =>
    intro a x y hsize hx hy hxy hbefore
    have ha : a < A.size := by
      by_contra ha
      rw [getElem?_neg A a ha] at hx
      cases hx
    -- `a` is the first address the search finds
    have hfind : (List.range A.size).find? (differsAt A B) = some a := by
      refine List.find?_range_eq_some.mpr ⟨?_, List.mem_range.mpr ha, fun j hj => ?_⟩
      · simp [differsAt, hx, hy, hxy]
      · simp [differsAt, hbefore j hj]
    rw [if_pos hsize, hfind]
    show Except.error (byteMismatch label A B a) = _
    rw [byteMismatch, hx, hy]
    rfl

/-- Image memories of three bytes that differ in the middle one: the comparison reports address 1,
with the byte of each. -/
theorem compareMemory_reports_middle_byte :
    (MemImage.view ⟨"want", ⟨#[1, 2, 3]⟩⟩).Shows ⟨#[1, 2, 3]⟩ ∧
      (MemImage.view ⟨"got", ⟨#[1, 5, 3]⟩⟩).Shows ⟨#[1, 5, 3]⟩ ∧
      compareMemory "memory0" (MemImage.view ⟨"want", ⟨#[1, 2, 3]⟩⟩)
          (MemImage.view ⟨"got", ⟨#[1, 5, 3]⟩⟩) =
        .error { phase := .verify, kind := .mismatch, path := ["memory0"],
                 detail := "byte at 0x" ++ Hex.ofNat 1 ++ " is 0x" ++ hex2 5 ++
                   ", image has 0x" ++ hex2 2 } := by
  have hA : (MemImage.view ⟨"want", ⟨#[1, 2, 3]⟩⟩).Shows ⟨#[1, 2, 3]⟩ :=
    MemImage.view_shows_bytes (by decide)
  have hB : (MemImage.view ⟨"got", ⟨#[1, 5, 3]⟩⟩).Shows ⟨#[1, 5, 3]⟩ :=
    MemImage.view_shows_bytes (by decide)
  exact ⟨hA, hB, (compareMemory_first_difference hA hB "memory0").2.2 1 2 5 rfl (by decide)
    (by decide) (by decide) (by decide)⟩

end Verify

end WasmImage
