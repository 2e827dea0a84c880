import Mathlib
import WasmImage.Binary.Cursor

/-!
# Reading the bytes ahead of a cursor

A reader is judged by the bytes it reads ahead of its cursor:

* `Reads r l a`: from every cursor whose bytes ahead start with `l`, whatever follows them, `r`
  gives `a` and stops right after `l`. Readers of this kind compose by concatenating what they
  read (`Reads.bind`), which is how an encoder's output is shown to decode;
* `ReadsAll r l a`: the same for cursors with exactly `l` ahead, for readers that take all that
  is left;
* `Sound r P`: every successful run of `r` reads some bytes `l` of its own array and gives an `a`
  with `P a l`, which is how what a decoder accepts is described.

`Reader.runFrom` runs a reader from any cursor; its equations for the monad operations are
proved once here, so that later proofs never unfold the monad.
-/

namespace WasmImage

namespace Cursor

/-- The bytes not read yet. -/
def ahead (c : Cursor) : List UInt8 := c.bytes.data.toList.drop c.pos

/-- The cursor `n` bytes further on. -/
def skip (c : Cursor) (n : Nat) : Cursor := { c with pos := c.pos + n }

@[simp] theorem skip_bytes (c : Cursor) (n : Nat) : (c.skip n).bytes = c.bytes := rfl

@[simp] theorem skip_pos (c : Cursor) (n : Nat) : (c.skip n).pos = c.pos + n := rfl

@[simp] theorem skip_zero (c : Cursor) : c.skip 0 = c := rfl

@[simp] theorem skip_skip (c : Cursor) (m n : Nat) : (c.skip m).skip n = c.skip (m + n) := by
  simp [skip, Nat.add_assoc]

theorem ahead_skip {c : Cursor} {l rest : List UInt8} (h : c.ahead = l ++ rest) :
    (c.skip l.length).ahead = rest := by
  simp only [ahead, skip] at h ⊢
  rw [← List.drop_drop, h, List.drop_left]

@[simp] theorem ofBytes_ahead (b : ByteArray) : (ofBytes b).ahead = b.data.toList := by
  simp [ahead, ofBytes]

theorem remaining_eq (c : Cursor) : c.remaining = c.ahead.length := by
  simp [remaining, ahead]

/-- The first byte ahead is the byte at the position. -/
theorem getElem_of_ahead {c : Cursor} {b : UInt8} {rest : List UInt8} (h : c.ahead = b :: rest) :
    ∃ hlt : c.pos < c.bytes.size, c.bytes[c.pos] = b := by
  have hlen := congrArg List.length h
  have hb := congrArg (·[0]?) h
  simp only [ahead, List.length_drop, Array.length_toList, ByteArray.size_data, List.length_cons,
    List.getElem?_drop, Nat.add_zero, List.getElem?_cons_zero, Array.getElem?_toList] at hlen hb
  have hlt : c.pos < c.bytes.size := by omega
  refine ⟨hlt, ?_⟩
  rw [ByteArray.getElem_eq_getElem_data]
  exact Option.some.inj (by rw [← Array.getElem?_eq_getElem]; exact hb)

/-- The `n` bytes ahead, taken out of the array, are the list ahead cut to `n`. -/
theorem extract_of_ahead {c : Cursor} {l rest : List UInt8} (h : c.ahead = l ++ rest) :
    c.bytes.extract c.pos (c.pos + l.length) = l.toByteArray := by
  apply ByteArray.ext
  apply Array.toList_inj.mp
  simp only [ByteArray.data_extract, Array.toList_extract, List.data_toByteArray,
    List.toList_toArray]
  simp only [ahead] at h
  rw [List.extract_eq_take_drop, Nat.add_sub_cancel_left, h, List.take_left]

theorem length_ahead (c : Cursor) : c.ahead.length = c.bytes.size - c.pos := by
  simp [ahead]

@[simp] theorem toByteArray_data_toList (b : ByteArray) : b.data.toList.toByteArray = b :=
  ByteArray.ext (by simp [List.data_toByteArray])

theorem le_size_of_ahead {c : Cursor} {l rest : List UInt8} (hc : c.pos ≤ c.bytes.size)
    (h : c.ahead = l ++ rest) : c.pos + l.length ≤ c.bytes.size := by
  have := congrArg List.length h
  rw [length_ahead, List.length_append] at this
  omega

end Cursor

namespace Reader

variable {ε ε' α β γ : Type}

/-- Runs `r` from the cursor `c`: its outcome and the cursor it leaves. -/
def runFrom (r : Reader ε α) (c : Cursor) : Except ε α × Cursor := (ExceptT.run r).run c

theorem run_eq_runFrom (r : Reader ε α) (b : ByteArray) : r.run b = r.runFrom (Cursor.ofBytes b) :=
  rfl

@[simp] theorem runFrom_get (c : Cursor) : (get : Reader ε Cursor).runFrom c = (.ok c, c) := rfl

@[simp] theorem runFrom_set (c c' : Cursor) : (set c' : Reader ε PUnit).runFrom c = (.ok ⟨⟩, c') :=
  rfl

@[simp] theorem runFrom_pure (c : Cursor) (a : α) : (pure a : Reader ε α).runFrom c = (.ok a, c) :=
  rfl

@[simp] theorem runFrom_throw (c : Cursor) (e : ε) :
    (throw e : Reader ε α).runFrom c = (.error e, c) := rfl

theorem runFrom_lift (f : ε → ε') (r : Reader ε α) (c : Cursor) :
    (Reader.lift f r).runFrom c = ((r.runFrom c).1.mapError f, (r.runFrom c).2) := rfl

theorem runFrom_map (f : α → β) (r : Reader ε α) (c : Cursor) :
    (f <$> r).runFrom c = ((r.runFrom c).1.map f, (r.runFrom c).2) := by
  simp only [runFrom, ExceptT.run_map, StateT.run_map]
  rfl

theorem runFrom_bind_ok {r : Reader ε α} {f : α → Reader ε β} {c c' : Cursor} {a : α}
    (h : r.runFrom c = (.ok a, c')) : (r >>= f).runFrom c = (f a).runFrom c' := by
  simp only [runFrom, ExceptT.run_bind, StateT.run_bind] at h ⊢
  rw [h]
  rfl

theorem runFrom_bind_error {r : Reader ε α} {f : α → Reader ε β} {c c' : Cursor} {e : ε}
    (h : r.runFrom c = (.error e, c')) : (r >>= f).runFrom c = (.error e, c') := by
  simp only [runFrom, ExceptT.run_bind, StateT.run_bind] at h ⊢
  rw [h]
  rfl

/-- A bind that succeeds ran both of its parts successfully. -/
theorem runFrom_bind_eq_ok {r : Reader ε α} {f : α → Reader ε β} {c c'' : Cursor} {b : β}
    (h : (r >>= f).runFrom c = (.ok b, c'')) :
    ∃ a c', r.runFrom c = (.ok a, c') ∧ (f a).runFrom c' = (.ok b, c'') := by
  rcases hr : r.runFrom c with ⟨_ | a, c'⟩
  · rw [runFrom_bind_error hr] at h
    cases h
  · exact ⟨a, c', rfl, by rwa [runFrom_bind_ok hr] at h⟩

theorem runFrom_tryCatch_ok {r : Reader ε α} {h : ε → Reader ε α} {c c' : Cursor} {a : α}
    (hr : r.runFrom c = (.ok a, c')) : (tryCatch r h).runFrom c = (.ok a, c') := by
  have hr' : StateT.run r c = _ := hr
  show StateT.run (ExceptT.tryCatch r h) c = _
  simp only [ExceptT.tryCatch, ExceptT.mk, StateT.run_bind, hr']
  rfl

theorem runFrom_tryCatch_error {r : Reader ε α} {h : ε → Reader ε α} {c c' : Cursor} {e : ε}
    (hr : r.runFrom c = (.error e, c')) : (tryCatch r h).runFrom c = (h e).runFrom c' := by
  have hr' : StateT.run r c = _ := hr
  show StateT.run (ExceptT.tryCatch r h) c = _
  simp only [ExceptT.tryCatch, ExceptT.mk, StateT.run_bind, hr']
  rfl

@[simp] theorem runFrom_position (c : Cursor) :
    (position : Reader ε Nat).runFrom c = (.ok c.pos, c) := rfl

@[simp] theorem runFrom_remaining (c : Cursor) :
    (remaining : Reader ε Nat).runFrom c = (.ok c.remaining, c) := rfl

@[simp] theorem runFrom_slice (c : Cursor) (start stop : Nat) :
    (slice start stop : Reader ε ByteArray).runFrom c = (.ok (c.bytes.extract start stop), c) := rfl

/-- Two branches that go on the same way: the join point of a `do` block. -/
theorem ite_bind_same {c : Prop} [Decidable c] (r s : Reader ε α) (k : α → Reader ε β) :
    (if c then r >>= k else s >>= k) = (if c then r else s) >>= k := by
  split <;> rfl

/-- A value computed from what was read, then handed on. -/
theorem bind_pure_bind (x : Reader ε α) (f : α → β) (k : β → Reader ε γ) :
    (x >>= fun a => pure (f a) >>= k) = (f <$> x) >>= k := by
  simp only [map_eq_pure_bind, bind_assoc]

/-- A reader that never succeeds, such as a handler that only reports a failure. -/
def Fails (r : Reader ε α) : Prop := ∀ c a c', r.runFrom c ≠ (.ok a, c')

theorem fails_throw (e : ε) : Fails (throw e : Reader ε α) := by
  intro c a c' h
  simp at h

theorem fails_bind {r : Reader ε α} {f : α → Reader ε β} (h : ∀ a, Fails (f a)) :
    Fails (r >>= f) := by
  intro c b c'' hr
  obtain ⟨a, c', _, hf⟩ := runFrom_bind_eq_ok hr
  exact h a c' b c'' hf

theorem Fails.bind {r : Reader ε α} (h : Fails r) (f : α → Reader ε β) : Fails (r >>= f) := by
  intro c b c'' hr
  obtain ⟨a, c', ha, _⟩ := runFrom_bind_eq_ok hr
  exact h c a c' ha

/-! ## Readers that read a given list, whatever follows it -/

/-- From every cursor whose bytes ahead start with `l`, `r` gives `a` and stops right after
`l`. -/
def Reads (r : Reader ε α) (l : List UInt8) (a : α) : Prop :=
  ∀ c rest, c.pos ≤ c.bytes.size → c.ahead = l ++ rest → r.runFrom c = (.ok a, c.skip l.length)

theorem Reads.bind {r : Reader ε α} {f : α → Reader ε β} {l₁ l₂ : List UInt8} {a : α} {b : β}
    (h₁ : Reads r l₁ a) (h₂ : Reads (f a) l₂ b) : Reads (r >>= f) (l₁ ++ l₂) b := by
  intro c rest hv hc
  have hc' : c.ahead = l₁ ++ (l₂ ++ rest) := by rw [hc, List.append_assoc]
  rw [runFrom_bind_ok (h₁ c _ hv hc'), h₂ _ rest (Cursor.le_size_of_ahead hv hc')
    (Cursor.ahead_skip hc'), Cursor.skip_skip, List.length_append]

/-- A bind whose second part reads nothing more. -/
theorem Reads.bind_last {r : Reader ε α} {f : α → Reader ε β} {l : List UInt8} {a : α} {b : β}
    (h₁ : Reads r l a) (h₂ : Reads (f a) [] b) : Reads (r >>= f) l b := by
  simpa using h₁.bind h₂

theorem reads_pure (a : α) : Reads (pure a : Reader ε α) [] a := by
  intro c _ _ _
  rfl

theorem Reads.lift {r : Reader ε α} {l : List UInt8} {a : α} (f : ε → ε') (h : Reads r l a) :
    Reads (Reader.lift f r) l a := by
  intro c rest hv hc
  rw [runFrom_lift, h c rest hv hc]
  rfl

theorem Reads.map {r : Reader ε α} {l : List UInt8} {a : α} (f : α → β) (h : Reads r l a) :
    Reads (f <$> r) l (f a) := by
  intro c rest hv hc
  rw [runFrom_map, h c rest hv hc]
  rfl

theorem Reads.tryCatch {r : Reader ε α} {l : List UInt8} {a : α} (h : ε → Reader ε α)
    (hr : Reads r l a) : Reads (tryCatch r h) l a := by
  intro c rest hv hc
  exact runFrom_tryCatch_ok (hr c rest hv hc)

theorem reads_ite {c : Prop} [Decidable c] {r s : Reader ε α} {l₁ l₂ : List UInt8} {a : α}
    (hr : c → Reads r l₁ a) (hs : ¬ c → Reads s l₂ a) :
    Reads (if c then r else s) (if c then l₁ else l₂) a := by
  by_cases h : c
  · simp only [if_pos h]
    exact hr h
  · simp only [if_neg h]
    exact hs h

/-- Two reads of the same list that agree where they read it. -/
theorem Reads.congr {r : Reader ε α} {l l' : List UInt8} {a a' : α} (h : Reads r l a)
    (hl : l = l') (ha : a = a') : Reads r l' a' := hl ▸ ha ▸ h

/-- A reader takes one prefix of its input: of two reads where the same bytes follow, each takes
what the other does and gives the same value. -/
theorem Reads.unique {r : Reader ε α} {l l' m m' : List UInt8} {a a' : α} (h : Reads r l a)
    (h' : Reads r l' a') (heq : l ++ m = l' ++ m') : l = l' ∧ a = a' := by
  -- run both from the start of those bytes
  let c := Cursor.ofBytes (l ++ m).toByteArray
  have hc : c.ahead = l ++ m := by simp [c, List.data_toByteArray]
  have hrun := (h c m (Nat.zero_le _) hc).symm.trans (h' c m' (Nat.zero_le _) (hc.trans heq))
  simp only [Prod.mk.injEq, Except.ok.injEq] at hrun
  have hlen : l.length = l'.length := by
    simpa [c, Cursor.ofBytes] using congrArg Cursor.pos hrun.2
  exact ⟨(List.append_inj heq hlen).1, hrun.1⟩

/-- Asking how many bytes are left, where at least `l` is left. -/
theorem reads_remaining_bind {f : Nat → Reader ε α} {l : List UInt8} {a : α}
    (h : ∀ n, l.length ≤ n → Reads (f n) l a) : Reads (remaining >>= f) l a := by
  intro c rest hv hc
  rw [runFrom_bind_ok (runFrom_remaining c)]
  refine h _ ?_ c rest hv hc
  rw [Cursor.remaining_eq, hc, List.length_append]
  exact Nat.le_add_right _ _

theorem byte_reads (b : UInt8) : Reads byte [b] b := by
  intro c rest _ hc
  obtain ⟨hlt, hb⟩ := Cursor.getElem_of_ahead hc
  unfold Reader.byte
  rw [runFrom_bind_ok (runFrom_get c), dif_pos hlt, runFrom_bind_ok (runFrom_set _ _), hb]
  rfl

theorem bytes_reads (l : List UInt8) : Reads (bytes l.length) l l.toByteArray := by
  intro c rest hv hc
  unfold Reader.bytes
  rw [runFrom_bind_ok (runFrom_get c), if_pos (Cursor.le_size_of_ahead hv hc),
    runFrom_bind_ok (runFrom_set _ _), Cursor.extract_of_ahead hc]
  rfl

/-! ## Readers that take everything that is left -/

/-- From every cursor with exactly `l` ahead, `r` gives `a` and reads all of `l`. -/
def ReadsAll (r : Reader ε α) (l : List UInt8) (a : α) : Prop :=
  ∀ c, c.pos ≤ c.bytes.size → c.ahead = l → r.runFrom c = (.ok a, c.skip l.length)

theorem Reads.readsAll {r : Reader ε α} {l : List UInt8} {a : α} (h : Reads r l a) :
    ReadsAll r l a := fun c hv hc => h c [] hv (by rw [hc, List.append_nil])

theorem ReadsAll.bind {r : Reader ε α} {f : α → Reader ε β} {l₁ l₂ : List UInt8} {a : α} {b : β}
    (h₁ : Reads r l₁ a) (h₂ : ReadsAll (f a) l₂ b) : ReadsAll (r >>= f) (l₁ ++ l₂) b := by
  intro c hv hc
  rw [runFrom_bind_ok (h₁ c _ hv hc), h₂ _ (Cursor.le_size_of_ahead hv hc) (Cursor.ahead_skip hc),
    Cursor.skip_skip, List.length_append]

/-- A read of everything, then a step that reads nothing more. -/
theorem ReadsAll.bind_last {r : Reader ε α} {f : α → Reader ε β} {l : List UInt8} {a : α} {b : β}
    (h₁ : ReadsAll r l a) (h₂ : Reads (f a) [] b) : ReadsAll (r >>= f) l b := by
  intro c hv hc
  have hend : (c.skip l.length).ahead = [] ++ [] := by
    rw [Cursor.ahead_skip (show c.ahead = l ++ [] by rw [hc, List.append_nil])]
    rfl
  rw [runFrom_bind_ok (h₁ c hv hc), h₂ _ [] (Cursor.le_size_of_ahead hv (hc.trans
    (List.append_nil l).symm)) hend, List.length_nil, Cursor.skip_skip, Nat.add_zero]

/-- Asking how many bytes are left, where exactly `l` is left. -/
theorem ReadsAll.remaining_bind {f : Nat → Reader ε α} {l : List UInt8} {a : α}
    (h : ReadsAll (f l.length) l a) : ReadsAll (remaining >>= f) l a := by
  intro c hv hc
  rw [runFrom_bind_ok (runFrom_remaining c), Cursor.remaining_eq, hc]
  exact h c hv hc

theorem ReadsAll.map {r : Reader ε α} {l : List UInt8} {a : α} (f : α → β) (h : ReadsAll r l a) :
    ReadsAll (f <$> r) l (f a) := by
  intro c hv hc
  rw [runFrom_map, h c hv hc]
  rfl

theorem ReadsAll.congr {r : Reader ε α} {l l' : List UInt8} {a a' : α} (h : ReadsAll r l a)
    (hl : l = l') (ha : a = a') : ReadsAll r l' a' := hl ▸ ha ▸ h

theorem rest_readsAll (l : List UInt8) : ReadsAll (rest : Reader ε ByteArray) l l.toByteArray := by
  intro c hv hc
  have hsize : c.bytes.size = c.pos + l.length := by
    have := congrArg List.length hc
    rw [Cursor.length_ahead] at this
    omega
  unfold Reader.rest
  rw [runFrom_bind_ok (runFrom_get c), runFrom_bind_ok (runFrom_set _ _), hsize,
    Cursor.extract_of_ahead (show c.ahead = l ++ [] by rw [hc, List.append_nil])]
  rfl

/-! ## What a successful run reads -/

/-- Every successful run of `r` moves its cursor over some bytes `l` of its own array and gives
an `a` with `P a l`. -/
def Sound (r : Reader ε α) (P : α → List UInt8 → Prop) : Prop :=
  ∀ c a c', c.pos ≤ c.bytes.size → r.runFrom c = (.ok a, c') →
    ∃ l, c' = c.skip l.length ∧ c.ahead = l ++ c'.ahead ∧ P a l

/-- The second part of a bind is judged knowing what the first part read. -/
theorem Sound.bind {r : Reader ε α} {f : α → Reader ε β} {P : α → List UInt8 → Prop}
    {Q : β → List UInt8 → Prop} (h₁ : Sound r P)
    (h₂ : ∀ a l₁, P a l₁ → Sound (f a) fun b l₂ => Q b (l₁ ++ l₂)) : Sound (r >>= f) Q := by
  intro c b c'' hv h
  obtain ⟨a, c', ha, hb⟩ := runFrom_bind_eq_ok h
  obtain ⟨l₁, rfl, e₁, p₁⟩ := h₁ c a c' hv ha
  obtain ⟨l₂, rfl, e₂, p₂⟩ :=
    h₂ a l₁ p₁ _ b _ (Cursor.le_size_of_ahead hv e₁) hb
  refine ⟨l₁ ++ l₂, by simp, ?_, p₂⟩
  rw [e₁, e₂, List.append_assoc]

/-- A reader that never succeeds has nothing to answer for. -/
theorem Fails.sound {r : Reader ε α} {P : α → List UInt8 → Prop} (h : Fails r) : Sound r P :=
  fun c a c' _ hr => absurd hr (h c a c')

theorem Sound.mono {r : Reader ε α} {P Q : α → List UInt8 → Prop} (h : Sound r P)
    (hPQ : ∀ a l, P a l → Q a l) : Sound r Q := by
  intro c a c' hv hr
  obtain ⟨l, e, e', p⟩ := h c a c' hv hr
  exact ⟨l, e, e', hPQ a l p⟩

theorem sound_pure {a : α} {P : α → List UInt8 → Prop} (h : P a []) :
    Sound (pure a : Reader ε α) P := by
  intro c a' c' _ hr
  simp only [runFrom_pure, Prod.mk.injEq, Except.ok.injEq] at hr
  obtain ⟨rfl, rfl⟩ := hr
  exact ⟨[], rfl, rfl, h⟩

theorem sound_throw {e : ε} {P : α → List UInt8 → Prop} : Sound (throw e : Reader ε α) P := by
  intro c a c' _ hr
  simp at hr

theorem Sound.lift {r : Reader ε α} {P : α → List UInt8 → Prop} (f : ε → ε') (h : Sound r P) :
    Sound (Reader.lift f r) P := by
  intro c a c' hv hr
  rw [runFrom_lift] at hr
  rcases hrun : r.runFrom c with ⟨_ | a', c''⟩
  · simp [hrun, Except.mapError] at hr
  · simp only [hrun, Except.mapError, Prod.mk.injEq, Except.ok.injEq] at hr
    obtain ⟨rfl, rfl⟩ := hr
    exact h c a' c'' hv hrun

theorem Sound.map {r : Reader ε α} {P : β → List UInt8 → Prop} (f : α → β)
    (h : Sound r fun a l => P (f a) l) : Sound (f <$> r) P := by
  intro c b c' hv hr
  rw [runFrom_map] at hr
  rcases hrun : r.runFrom c with ⟨_ | a, c''⟩
  · simp [hrun, Except.map] at hr
  · simp only [hrun, Except.map, Prod.mk.injEq, Except.ok.injEq] at hr
    obtain ⟨rfl, rfl⟩ := hr
    exact h c a c'' hv hrun

theorem Sound.tryCatch {r : Reader ε α} {P : α → List UInt8 → Prop} {h : ε → Reader ε α}
    (hr : Sound r P) (hh : ∀ e, Fails (h e)) : Sound (tryCatch r h) P := by
  intro c a c' hv hrun
  rcases hr' : r.runFrom c with ⟨e | a', c''⟩
  · rw [runFrom_tryCatch_error hr'] at hrun
    exact absurd hrun (hh e c'' a c')
  · rw [runFrom_tryCatch_ok hr'] at hrun
    rw [hrun] at hr'
    exact hr c a c' hv hr'

theorem Sound.ite {c : Prop} [Decidable c] {r s : Reader ε α} {P : α → List UInt8 → Prop}
    (hr : c → Sound r P) (hs : ¬ c → Sound s P) : Sound (if c then r else s) P := by
  by_cases h : c
  · rw [if_pos h]; exact hr h
  · rw [if_neg h]; exact hs h

theorem remaining_sound : Sound (remaining : Reader ε Nat) fun _ l => l = [] := by
  intro c n c' _ hr
  simp only [runFrom_remaining, Prod.mk.injEq] at hr
  obtain ⟨-, rfl⟩ := hr
  exact ⟨[], rfl, rfl, rfl⟩

theorem byte_sound : Sound byte fun b l => l = [b] := by
  intro c b c' _ hr
  unfold Reader.byte at hr
  rw [runFrom_bind_ok (runFrom_get c)] at hr
  split at hr
  · rename_i hlt
    rw [runFrom_bind_ok (runFrom_set _ _)] at hr
    simp only [runFrom_pure, Prod.mk.injEq, Except.ok.injEq] at hr
    obtain ⟨rfl, rfl⟩ := hr
    refine ⟨[c.bytes[c.pos]], rfl, ?_, rfl⟩
    simp only [Cursor.ahead, List.cons_append, List.nil_append]
    rw [List.drop_eq_getElem_cons (by simpa using hlt)]
    simp [ByteArray.getElem_eq_getElem_data]
  · simp at hr

theorem bytes_sound (n : Nat) : Sound (bytes n) fun x l => l = x.data.toList ∧ l.length = n := by
  intro c x c' _ hr
  unfold Reader.bytes at hr
  rw [runFrom_bind_ok (runFrom_get c)] at hr
  split at hr
  · rename_i hle
    rw [runFrom_bind_ok (runFrom_set _ _)] at hr
    simp only [runFrom_pure, Prod.mk.injEq, Except.ok.injEq] at hr
    obtain ⟨rfl, rfl⟩ := hr
    refine ⟨(c.bytes.data.toList.drop c.pos).take n, ?_, ?_, ?_, ?_⟩
    · simp only [List.length_take, List.length_drop, Array.length_toList, ByteArray.size_data]
      congr 1
      omega
    · show c.ahead = _ ++ (c.skip n).ahead
      simp only [Cursor.ahead, Cursor.skip_bytes, Cursor.skip_pos]
      rw [← List.drop_drop, List.take_append_drop]
    · simp [ByteArray.data_extract, List.extract_eq_take_drop]
    · simp only [List.length_take, List.length_drop, Array.length_toList, ByteArray.size_data]
      omega
  · simp at hr

/-- A successful run over a whole array reads at most the array. -/
theorem Sound.of_run {r : Reader ε α} {P : α → List UInt8 → Prop} (h : Sound r P)
    {b : ByteArray} {a : α} {c : Cursor} (hr : r.run b = (.ok a, c)) :
    ∃ l, l.length ≤ b.size ∧ P a l := by
  obtain ⟨l, -, hahead, hP⟩ := h (Cursor.ofBytes b) a c (Nat.zero_le _) hr
  refine ⟨l, ?_, hP⟩
  have hlen := congrArg List.length hahead
  simp only [Cursor.ofBytes_ahead, Array.length_toList, ByteArray.size_data,
    List.length_append] at hlen
  omega

/-- A successful run over a whole array read exactly as many bytes as its cursor moved. -/
theorem Sound.of_run_pos {r : Reader ε α} {P : α → List UInt8 → Prop} (h : Sound r P)
    {b : ByteArray} {a : α} {c : Cursor} (hr : r.run b = (.ok a, c)) :
    ∃ l, c.pos = l.length ∧ P a l := by
  obtain ⟨l, rfl, -, hP⟩ := h (Cursor.ofBytes b) a c (Nat.zero_le _) hr
  exact ⟨l, Nat.zero_add _, hP⟩

/-! ## What a successful run that reads to the end reads -/

/-- Every successful run of `r` gives an `a` with `P a l`, where `l` is everything that was ahead
of the cursor: for readers that end by taking all that is left. -/
def SoundAll (r : Reader ε α) (P : α → List UInt8 → Prop) : Prop :=
  ∀ c a c', c.pos ≤ c.bytes.size → r.runFrom c = (.ok a, c') → P a c.ahead

theorem Sound.bindAll {r : Reader ε α} {f : α → Reader ε β} {P : α → List UInt8 → Prop}
    {Q : β → List UInt8 → Prop} (h₁ : Sound r P)
    (h₂ : ∀ a l₁, P a l₁ → SoundAll (f a) fun b l₂ => Q b (l₁ ++ l₂)) :
    SoundAll (r >>= f) Q := by
  intro c b c'' hv h
  obtain ⟨a, c', ha, hb⟩ := runFrom_bind_eq_ok h
  obtain ⟨l₁, rfl, e₁, p₁⟩ := h₁ c a c' hv ha
  rw [e₁]
  exact h₂ a l₁ p₁ _ b _ (Cursor.le_size_of_ahead hv e₁) hb

theorem SoundAll.mono {r : Reader ε α} {P Q : α → List UInt8 → Prop} (h : SoundAll r P)
    (hPQ : ∀ a l, P a l → Q a l) : SoundAll r Q :=
  fun c a c' hv hr => hPQ a _ (h c a c' hv hr)

theorem SoundAll.map {r : Reader ε α} {P : β → List UInt8 → Prop} (f : α → β)
    (h : SoundAll r fun a l => P (f a) l) : SoundAll (f <$> r) P := by
  intro c b c' hv hr
  rw [runFrom_map] at hr
  rcases hrun : r.runFrom c with ⟨_ | a, c''⟩
  · simp [hrun, Except.map] at hr
  · simp only [hrun, Except.map, Prod.mk.injEq, Except.ok.injEq] at hr
    obtain ⟨rfl, rfl⟩ := hr
    exact h c a c'' hv hrun

/-- A successful run over a whole array, for a reader that reads to the end. -/
theorem SoundAll.of_run {r : Reader ε α} {P : α → List UInt8 → Prop} (h : SoundAll r P)
    {b : ByteArray} {a : α} {c : Cursor} (hr : r.run b = (.ok a, c)) : P a b.data.toList := by
  simpa using h (Cursor.ofBytes b) a c (Nat.zero_le _) hr

theorem rest_soundAll : SoundAll (rest : Reader ε ByteArray) fun x l => l = x.data.toList := by
  intro c x c' hv hr
  unfold Reader.rest at hr
  rw [runFrom_bind_ok (runFrom_get c), runFrom_bind_ok (runFrom_set _ _)] at hr
  simp only [runFrom_pure, Prod.mk.injEq, Except.ok.injEq] at hr
  obtain ⟨rfl, rfl⟩ := hr
  simp only [Cursor.ahead, ByteArray.data_extract, Array.toList_extract, List.extract_eq_take_drop]
  rw [List.take_of_length_le (by simp)]

/-! ## Loops that read one item per index -/

section Collect

variable {g : Nat → Reader ε α}

/-- The loop of the vector readers: item `g i` for each index `i`, pushed after `acc`. Reading
the items' bytes one after another reads the items in order. -/
theorem collect_reads {w : α → List UInt8} (xs : List α) (s : Nat) (acc : Array α)
    (hg : ∀ i, ∀ x ∈ xs, Reads (g i) (w x) x) :
    Reads (forIn (List.range' s xs.length) acc fun i out => do
        let x ← g i
        pure (ForInStep.yield (out.push x)))
      (xs.map w).flatten (acc ++ xs.toArray) := by
  induction xs generalizing s acc with
  | nil => simpa using reads_pure (ε := ε) acc
  | cons x xs ih =>
    rw [List.length_cons, List.range'_succ, List.forIn_cons]
    simp only [bind_assoc, pure_bind, List.map_cons, List.flatten_cons]
    refine (hg s x List.mem_cons_self).bind ?_
    refine (ih (s + 1) (acc.push x) fun i y hy => hg i y (List.mem_cons_of_mem x hy)).congr rfl ?_
    simp

/-- What a successful run of the loop reads is one piece per item, each piece what the item's
reader read. -/
theorem collect_sound {P : α → List UInt8 → Prop} (hg : ∀ i, Sound (g i) P) (n s : Nat)
    (acc : Array α) :
    Sound (forIn (List.range' s n) acc fun i out => do
        let x ← g i
        pure (ForInStep.yield (out.push x)))
      fun arr l => ∃ xs ls, arr = acc ++ xs.toArray ∧ l = ls.flatten ∧ xs.length = n ∧
        List.Forall₂ P xs ls := by
  induction n generalizing s acc with
  | zero => exact sound_pure ⟨[], [], by simp, rfl, rfl, .nil⟩
  | succ n ih =>
    rw [List.range'_succ, List.forIn_cons]
    simp only [bind_assoc, pure_bind]
    refine Sound.bind (hg s) fun x l₁ hx => (ih (s + 1) (acc.push x)).mono ?_
    rintro arr l₂ ⟨xs, ls, rfl, rfl, hlen, hall⟩
    exact ⟨x :: xs, l₁ :: ls, by simp, by simp, by simp [hlen], .cons hx hall⟩

end Collect

end Reader

end WasmImage
