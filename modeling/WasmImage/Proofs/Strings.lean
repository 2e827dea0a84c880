import WasmImage.Proofs.Memory
import WasmImage.Proofs.Entries

/-!
# Strings in memory images

A string is read from its address up to the first zero byte, which is left out, and its bytes
must be UTF-8. The read walks byte by byte while the address is below both the end of the memory
and `2^32`, so a string ends at the first zero byte in that range (`StringEnd`); with no zero byte
there, the read fails out of bounds at the first address past the range.

On every memory shorter than `2^32` bytes that range is the one single-byte accesses have
(`Fits`). A memory of `2^32` bytes, the 65536 pages a 32-bit memory may have, lets a string end
one byte later: at address `2^32 - 1`, a byte that no access may read, since its end does not fit
32 bits.

Main statement: `MemImage.readString_terminated`, for every image and address.
-/

namespace WasmImage

namespace MemImage

open Wasm.Decode

/-- The string at `addr` ends `k` bytes on: at the first zero byte from `addr`, whose address is
below both the end of the memory and `2^32`. -/
def StringEnd (m : MemImage) (addr k : Nat) : Prop :=
  addr + k < min m.len (2 ^ 32) ∧ m.contents[addr + k]? = some 0 ∧
    ∀ j < k, m.contents[addr + j]? ≠ some 0

theorem StringEnd.unique {m : MemImage} {addr k k' : Nat} (h : m.StringEnd addr k)
    (h' : m.StringEnd addr k') : k = k' := by
  rcases Nat.lt_trichotomy k k' with hlt | heq | hgt
  · exact absurd h.2.1 (h'.2.2 k hlt)
  · exact heq
  · exact absurd h'.2.1 (h.2.2 k' hgt)

/-- The scan's test: a byte past the end counts as not zero. -/
theorem getD_eq_zero_iff (m : MemImage) (i : Nat) :
    m.bytes[i]?.getD 1 = 0 ↔ m.contents[i]? = some 0 := by
  have hget : m.bytes[i]? = m.contents[i]? := by
    rw [contents, Array.getElem?_toList]
    rfl
  rw [hget]
  cases m.contents[i]? <;> simp

/-- The scan over `n` addresses from `i` stops at the first zero byte among them, or after all of
them. -/
theorem go_eq (m : MemImage) : ∀ (n i : Nat),
    (∃ k < n, m.contents[i + k]? = some 0 ∧ (∀ j < k, m.contents[i + j]? ≠ some 0) ∧
        readString.go m i n = i + k) ∨
      ((∀ j < n, m.contents[i + j]? ≠ some 0) ∧ readString.go m i n = i + n)
  | 0, i => .inr ⟨fun j hj => absurd hj (Nat.not_lt_zero j), rfl⟩
  | n + 1, i => by
    by_cases hz : m.contents[i]? = some 0
    · -- a zero byte right here
      refine .inl ⟨0, Nat.zero_lt_succ n, hz, fun j hj => absurd hj (Nat.not_lt_zero j), ?_⟩
      simp [readString.go, (getD_eq_zero_iff m i).mpr hz]
    have hgo : readString.go m i (n + 1) = readString.go m (i + 1) n := by
      rw [readString.go, if_neg fun h => hz ((getD_eq_zero_iff m i).mp h)]
    -- every address after this one is one further on from `i + 1`
    have hshift : ∀ j, i + (j + 1) = i + 1 + j := fun j => by omega
    have hfirst : ∀ k, (∀ j < k, m.contents[i + 1 + j]? ≠ some 0) →
        ∀ j < k + 1, m.contents[i + j]? ≠ some 0 := by
      intro k hbefore j hj
      cases j with
      | zero => simpa using hz
      | succ j => rw [hshift]; exact hbefore j (by omega)
    rcases go_eq m n (i + 1) with ⟨k, hk, hzk, hbefore, hstop⟩ | ⟨hnone, hstop⟩
    · refine .inl ⟨k + 1, by omega, by rwa [hshift], hfirst k hbefore, ?_⟩
      rw [hgo, hstop]
      omega
    · refine .inr ⟨hfirst n hnone, ?_⟩
      rw [hgo, hstop]
      omega

/-- A string ends in the range, or no zero byte lies in it. -/
theorem stringEnd_or_none (m : MemImage) (addr : Nat) :
    (∃ k, m.StringEnd addr k) ∨
      ∀ k, addr + k < min m.len (2 ^ 32) → m.contents[addr + k]? ≠ some 0 := by
  rcases go_eq m (min m.len (2 ^ 32) - addr) addr with ⟨k, hk, hzk, hbefore, -⟩ | ⟨hnone, -⟩
  · exact .inl ⟨k, by omega, hzk, hbefore⟩
  · exact .inr fun k hk => hnone k (by omega)

section Read

variable {m : MemImage} {addr : UInt32}

/-- Where the string ends, the read stops there and decodes the bytes before it. -/
theorem readString_of_end {k : Nat} (h : m.StringEnd addr.toNat k) :
    m.readString addr = (String.fromUTF8? (m.bytes.extract addr.toNat (addr.toNat + k))).elim
      (.error (Fault.invalidUtf8 .read [m.label] (m.bytes.extract addr.toNat (addr.toNat + k)))) .ok := by
  have hstop : readString.go m addr.toNat (min m.len 0x100000000 - addr.toNat) = addr.toNat + k := by
    rcases go_eq m (min m.len 0x100000000 - addr.toNat) addr.toNat with
      ⟨k', hk', hzk', hbefore', hstop⟩ | ⟨hnone, -⟩
    · -- the scan stops at the first zero byte, which is the string's end
      rw [hstop, (h.unique ⟨by omega, hzk', hbefore'⟩ :)]
    · exact absurd h.2.1 (hnone k (by have := h.1; omega))
  have hlt : ¬ addr.toNat + k ≥ min m.len 0x100000000 := by
    have := h.1
    omega
  unfold readString
  simp only [hstop, hlt, if_false]
  cases String.fromUTF8? (m.bytes.extract addr.toNat (addr.toNat + k)) <;> rfl

/-- With no zero byte in the range, the read fails at the first address past it. -/
theorem readString_of_none
    (h : ∀ k, addr.toNat + k < min m.len (2 ^ 32) → m.contents[addr.toNat + k]? ≠ some 0) :
    m.readString addr =
      .error (Fault.outOfBounds .read [m.label] (max addr.toNat (min m.len (2 ^ 32))) 1 m.len) := by
  have hstop : readString.go m addr.toNat (min m.len 0x100000000 - addr.toNat) =
      max addr.toNat (min m.len (2 ^ 32)) := by
    rcases go_eq m (min m.len 0x100000000 - addr.toNat) addr.toNat with
      ⟨k, hk, hzk, -, -⟩ | ⟨-, hstop⟩
    · exact absurd hzk (h k (by omega))
    · rw [hstop]
      omega
  have hge : max addr.toNat (min m.len (2 ^ 32)) ≥ min m.len 0x100000000 := by omega
  unfold readString
  simp only [hstop, hge, if_true]

end Read

/-- A string is read up to its end, the first zero byte below both the end of the memory and
`2^32`, and is exactly the bytes before it, which must be UTF-8: otherwise the read fails as
invalid UTF-8 with those bytes, and with no zero byte in that range it fails out of bounds at the
first address past it. That range is the one single-byte accesses have, but for one byte: on a
memory of `2^32` bytes or more, the byte at `2^32 - 1`, which no access may read, can end a
string. -/
theorem readString_terminated (m : MemImage) (addr : UInt32) :
    (∀ s, m.readString addr = .ok s ↔
      ∃ k, m.StringEnd addr.toNat k ∧ s.toUTF8 = m.bytes.extract addr.toNat (addr.toNat + k)) ∧
    ((∀ k, addr.toNat + k < min m.len (2 ^ 32) → m.contents[addr.toNat + k]? ≠ some 0) →
      m.readString addr =
        .error (Fault.outOfBounds .read [m.label] (max addr.toNat (min m.len (2 ^ 32))) 1 m.len)) ∧
    (∀ k, m.StringEnd addr.toNat k →
      String.fromUTF8? (m.bytes.extract addr.toNat (addr.toNat + k)) = none →
      m.readString addr =
        .error (Fault.invalidUtf8 .read [m.label] (m.bytes.extract addr.toNat (addr.toNat + k)))) ∧
    (∀ k, addr.toNat + k < min m.len (2 ^ 32) ↔
      Fits m.len addr.toNat (k + 1) ∨ (addr.toNat + k = 2 ^ 32 - 1 ∧ 2 ^ 32 ≤ m.len)) := by
  refine ⟨fun s => ⟨fun hs => ?_, fun ⟨k, hk, hs⟩ => ?_⟩, readString_of_none,
    fun k hk hbad => by rw [readString_of_end hk, hbad]; rfl, fun k => by unfold Fits; omega⟩
  · -- a string that was read ended in the range, and decoded
    rcases stringEnd_or_none m addr.toNat with ⟨k, hk⟩ | hnone
    · rw [readString_of_end hk] at hs
      cases hdec : String.fromUTF8? (m.bytes.extract addr.toNat (addr.toNat + k)) with
      | none =>
        rw [hdec] at hs
        cases hs
      | some s' =>
        rw [hdec] at hs
        cases hs
        exact ⟨k, hk, toUTF8_of_fromUTF8? hdec⟩
    · rw [readString_of_none hnone] at hs
      cases hs
  · rw [readString_of_end hk, ← hs, fromUTF8?_toUTF8]
    rfl

/-- Sixty-five thousand five hundred and thirty-six zeroed pages: the read of a string at the last
address gives the empty string, ended by the byte there, though that byte cannot be read. -/
theorem readString_last_byte :
    (zeroed "memory0" 65536).readString 0xffffffff = .ok "" ∧
      (zeroed "memory0" 65536).canRead 0xffffffff 1 = false := by
  have hlen : (zeroed "memory0" 65536).len = 2 ^ 32 := by
    rw [zeroed_len, pageSize]
    norm_num
  have hend : (zeroed "memory0" 65536).StringEnd (0xffffffff : UInt32).toNat 0 := by
    refine ⟨by rw [hlen]; decide, ?_, fun j hj => absurd hj (Nat.not_lt_zero j)⟩
    rw [contents, zeroed, zeroBytes_data, List.getElem?_replicate, if_pos (by rw [pageSize]; decide)]
  -- the string before that byte is empty
  have hempty : (zeroed "memory0" 65536).bytes.extract (0xffffffff : UInt32).toNat
      ((0xffffffff : UInt32).toNat + 0) = "".toUTF8 := by
    apply ByteArray.ext
    apply Array.toList_inj.mp
    rw [contents_extract]
    simp only [window, List.take_zero]
    rfl
  refine ⟨by rw [readString_of_end hend, hempty, fromUTF8?_toUTF8]; rfl, ?_⟩
  simp only [canRead, hlen]
  decide

end MemImage

end WasmImage
