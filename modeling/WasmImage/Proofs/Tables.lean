import WasmImage.Proofs.Resolution
import WasmImage.Proofs.Overlay

/-!
# Table slots from element segments

Resolution writes each active element segment of a funcref table into the table's slots, in
section order: the slots are padded with the invalid id up to the segment's end, and its
functions are placed from its offset. A funcref table so ends up holding the overlay of the
segments' placements over invalid ids, as far as the largest end, which lies within the table's
initial size (`TableData.Holds`).

The end of a segment is computed in 64 bits. Where offset plus count reaches 2^64 it wraps below
the offset and passes the size check, and the write from the offset may then crash. That is the
only way resolution crashes; where no segment wraps, every active segment of a funcref table of a
resolved module ends within the table (`element_tables`).
-/

namespace WasmImage.View

open Wasm

/-! ## What a segment writes -/

/-- The functions element segment `i` writes, placed from the offset it evaluates to, when both
evaluate. -/
def elementPlacement (v : View) (i : Nat) (e : Element) : Option (Placed UInt32) :=
  match v.offset (e.offset.getD ByteArray.empty) ["elem", toString i],
      elementFuncs e ["elem", toString i] with
  | .ok off, .ok funcs => some ⟨off.toNat, funcs⟩
  | _, _ => none

/-- The placements into table `t` of the active segments among `es`, in section order. -/
def tablePlacements (v : View) (es : List (Element × Nat)) (t : Nat) : List (Placed UInt32) :=
  es.filterMap fun (e, i) => if e.isActive ∧ e.tableIdx.toNat = t then v.elementPlacement i e else none

/-- `e` is an active segment of the funcref table `tbl` among `tables`. -/
def FuncrefSegment (tables : Array TableData) (e : Element) (tbl : TableData) : Prop :=
  e.isActive ∧ tables[e.tableIdx.toNat]? = some tbl ∧ tbl.elemType = .funcref

/-- Some active segment of a funcref table among `es` ends at 2^64 or past it. -/
def WrapsAround (v : View) (es : List (Element × Nat)) : Prop :=
  ∃ x ∈ es, ∃ tbl p, FuncrefSegment v.tables x.1 tbl ∧ v.elementPlacement x.2 x.1 = some p ∧
    2 ^ 64 ≤ p.stop

/-- The slots of `tbl` hold the placements `ps` over invalid ids, as far as they reach, and they
reach no further than the table's initial size. -/
def TableData.Holds (tbl : TableData) (ps : List (Placed UInt32)) : Prop :=
  tbl.funcElements.toList = (List.range (reach ps)).map (overlay invalidFunc ps) ∧
    reach ps ≤ tbl.initial.toNat

/-- A table without its slots. -/
def TableData.clear (tbl : TableData) : TableData := { tbl with funcElements := #[] }

/-- The slots padded with the invalid id up to the end of `p`, with `p` placed over them. -/
def padPlace (slots : Array UInt32) (p : Placed UInt32) : List UInt32 :=
  place (slots.toList ++ List.replicate (p.stop - slots.size) invalidFunc) p

theorem offset_congr {v w : View} (h : v.globals = w.globals) : v.offset = w.offset := by
  funext expr path
  simp only [View.offset, h]

theorem elementPlacement_congr {v w : View} (h : v.globals = w.globals) :
    v.elementPlacement = w.elementPlacement := by
  funext i e
  simp only [elementPlacement, offset_congr h]

theorem tablePlacements_congr {v w : View} (h : v.globals = w.globals) :
    v.tablePlacements = w.tablePlacements := by
  funext es t
  simp only [tablePlacements, elementPlacement_congr h]

theorem tablePlacements_append_singleton (v : View) (pre : List (Element × Nat)) (e : Element)
    (i t : Nat) :
    v.tablePlacements (pre ++ [(e, i)]) t = v.tablePlacements pre t ++
      if e.isActive ∧ e.tableIdx.toNat = t then (v.elementPlacement i e).toList else [] := by
  rw [tablePlacements, tablePlacements, List.filterMap_append]
  congr 1
  by_cases h : e.isActive ∧ e.tableIdx.toNat = t
  · rw [if_pos h]
    simp only [List.filterMap_cons, List.filterMap_nil, if_pos h]
    cases v.elementPlacement i e <;> rfl
  · simp only [List.filterMap_cons, List.filterMap_nil, if_neg h]

theorem mem_tablePlacements {v : View} {es : List (Element × Nat)} {x : Element × Nat}
    {p : Placed UInt32} (hx : x ∈ es) (hact : x.1.isActive) (hp : v.elementPlacement x.2 x.1 = some p) :
    p ∈ v.tablePlacements es x.1.tableIdx.toNat := by
  obtain ⟨e, i⟩ := x
  refine List.mem_filterMap.mpr ⟨(e, i), hx, ?_⟩
  dsimp only
  rw [if_pos ⟨hact, rfl⟩]
  exact hp

/-- Every placement into a table that holds them ends within it. -/
theorem TableData.Holds.stop_le {tbl : TableData} {ps : List (Placed UInt32)} (h : tbl.Holds ps)
    {p : Placed UInt32} (hp : p ∈ ps) : p.stop ≤ tbl.initial.toNat :=
  Nat.le_trans (stop_le_reach hp) h.2

/-- Writing one more placement that ends within the table keeps the slots holding the
placements. -/
theorem TableData.Holds.write {tbl : TableData} {ps : List (Placed UInt32)} (h : tbl.Holds ps)
    {p : Placed UInt32} (hp : p.stop ≤ tbl.initial.toNat) :
    ({ tbl with funcElements := ⟨padPlace tbl.funcElements p⟩ } : TableData).Holds (ps ++ [p]) := by
  obtain ⟨hslots, hreach⟩ := h
  have hsize : tbl.funcElements.size = reach ps := by
    simpa using congrArg List.length hslots
  have hreach' : reach (ps ++ [p]) ≤ tbl.initial.toNat := by
    rw [reach_append_singleton]
    omega
  refine ⟨?_, hreach'⟩
  -- pad the overlay to the new reach, then place `p` over it
  show padPlace tbl.funcElements p = _
  rw [padPlace, hslots, hsize, reach_append_singleton,
    show p.stop - reach ps = max (reach ps) p.stop - reach ps by omega,
    map_overlay_extend (Nat.le_refl _) (Nat.le_max_left _ _)]
  exact place_map_overlay (Nat.le_max_right _ _)

/-! ## Writing the slots -/

theorem place_set {α : Type} (l : List α) (k : Nat) (x : α) (items : List α)
    (h : k + 1 + items.length ≤ l.length) :
    place (l.set k x) ⟨k + 1, items⟩ = place l ⟨k, x :: items⟩ := by
  rw [List.set_eq_take_append_cons_drop, if_pos (by omega)]
  have htake : (l.take k).length = k := by simp; omega
  simp only [place, Placed.stop, List.length_cons, List.take_append, List.drop_append, htake,
    List.take_of_length_le (Nat.le_succ_of_le (Nat.le_of_eq htake)),
    List.drop_eq_nil_of_le (show (l.take k).length ≤ k + 1 + items.length by omega)]
  rw [show k + 1 - k = 1 by omega, show k + 1 + items.length - k = items.length + 1 by omega,
    List.drop_succ_cons, List.drop_drop]
  simp [Nat.add_comm, Nat.add_left_comm]

/-- Setting items one slot after another, all within the array, places them. -/
theorem toList_foldl_setIfInBounds {α : Type} (off : Nat) :
    ∀ (items : List α) (n : Nat) (a : Array α), off + n + items.length ≤ a.size →
      ((items.zipIdx n).foldl (fun acc x => acc.setIfInBounds (off + x.2) x.1) a).toList =
        place a.toList ⟨off + n, items⟩
  | [], n, a, _ => by simp [place, Placed.stop]
  | x :: items, n, a, h => by
    rw [List.zipIdx_cons, List.foldl_cons]
    rw [toList_foldl_setIfInBounds off items (n + 1) _ (by simp at h ⊢; omega)]
    rw [Array.toList_setIfInBounds, ← Nat.add_assoc]
    exact place_set _ _ _ _ (by simp at h ⊢; omega)

/-- The slots padded up to `stop` reach it. -/
theorem padded_size (slots : Array UInt32) (stop : Nat) :
    stop ≤ (if slots.size < stop then slots ++ Array.replicate (stop - slots.size) invalidFunc
      else slots).size := by
  split
  · simp
    omega
  · omega

/-- A segment whose end does not wrap pads the slots to its end and places its functions. -/
theorem writeSlots_placed (slots : Array UInt32) (p : Placed UInt32) :
    writeSlots slots p.offset p.stop p.items = .ok ⟨padPlace slots p⟩ := by
  have hsize := padded_size slots p.stop
  have hlist : (if slots.size < p.stop then slots ++ Array.replicate (p.stop - slots.size) invalidFunc
      else slots).toList = slots.toList ++ List.replicate (p.stop - slots.size) invalidFunc := by
    split
    · simp
    · rw [show p.stop - slots.size = 0 by omega]
      simp
  have hstop : p.stop = p.offset + p.items.length := rfl
  unfold writeSlots
  dsimp only
  rw [if_neg (by omega)]
  congr 1
  apply Array.ext'
  rw [toList_foldl_setIfInBounds p.offset p.items 0 _ (by omega), hlist, Nat.add_zero]
  rfl

/-- Writing fails only by a crash, for a start past the end. -/
theorem writeSlots_error {slots : Array UInt32} {off stop : Nat} {funcs : List UInt32}
    {e : Failure} (h : writeSlots slots off stop funcs = .error e) :
    stop < off ∧ ∃ m, e = .crash m := by
  have hsize := padded_size slots stop
  unfold writeSlots at h
  dsimp only at h
  set padded := if slots.size < stop then slots ++ Array.replicate (stop - slots.size) invalidFunc
    else slots
  split at h
  · injection h with h
    exact ⟨by omega, _, h.symm⟩
  · cases h

/-- An end computed in 64 bits is the exact one when that is below 2^64. -/
theorem toNat_add_length {off : UInt64} {n : Nat} (h : off.toNat + n < 2 ^ 64) :
    (off + n.toUInt64).toNat = off.toNat + n := by
  rw [UInt64.toNat_add, Nat.toUInt64_eq, UInt64.toNat_ofNat',
    Nat.mod_eq_of_lt (by omega : n < 2 ^ 64), Nat.mod_eq_of_lt h]

/-- A write that passed the guard of the table's size: with an end that does not wrap, the functions
are placed within the table; with one that wraps, the write crashes or leaves some slots. -/
theorem writeSlots_guarded (slots : Array UInt32) {off initial : UInt64} (funcs : List UInt32)
    (hguard : ¬ off + funcs.length.toUInt64 > initial) :
    (off.toNat + funcs.length < 2 ^ 64 ∧ off.toNat + funcs.length ≤ initial.toNat ∧
        writeSlots slots off.toNat (off + funcs.length.toUInt64).toNat funcs =
          .ok ⟨padPlace slots ⟨off.toNat, funcs⟩⟩) ∨
      (2 ^ 64 ≤ off.toNat + funcs.length ∧
        ((∃ m, writeSlots slots off.toNat (off + funcs.length.toUInt64).toNat funcs = .error (.crash m)) ∨
          ∃ s, writeSlots slots off.toNat (off + funcs.length.toUInt64).toNat funcs = .ok s)) := by
  by_cases hwrap : off.toNat + funcs.length < 2 ^ 64
  · -- the exact end: the slots padded to it, with the functions placed
    have hfit : off.toNat + funcs.length ≤ initial.toNat := by
      rw [gt_iff_lt, UInt64.lt_iff_toNat_lt, toNat_add_length hwrap] at hguard
      omega
    refine .inl ⟨hwrap, hfit, ?_⟩
    rw [toNat_add_length hwrap]
    exact writeSlots_placed slots ⟨off.toNat, funcs⟩
  · refine .inr ⟨by omega, ?_⟩
    cases hw : writeSlots slots off.toNat (off + funcs.length.toUInt64).toNat funcs with
    | error err =>
      obtain ⟨-, m, rfl⟩ := writeSlots_error hw
      exact .inl ⟨m, rfl⟩
    | ok t => exact .inr ⟨t, rfl⟩

/-! ## One segment -/

/-- A segment that is not an active one of a funcref table writes nothing. -/
theorem elementTables_of_not_funcref {G : Array GlobalData} {ts : Array TableData} {i : Nat}
    {e : Element} (h : ∀ tbl, ¬ FuncrefSegment ts e tbl) :
    elementTables G ts i e = .ok ts ∨ ∃ f, elementTables G ts i e = .error (.fault f) := by
  unfold elementTables addElement
  by_cases hact : e.isActive
  · cases hget : ts[e.tableIdx.toNat]? with
    | none =>
      right
      simp only [hact, Bool.not_true]
      exact ⟨_, rfl⟩
    | some tbl =>
      have hty : tbl.elemType ≠ .funcref := fun hf => h tbl ⟨hact, hget, hf⟩
      left
      simp [hact, hty]
      rfl
  · left
    simp [hact]
    rfl

/-- An active segment of a funcref table fails with a fault, or evaluates to a placement; one
that does not wrap is then written into the table's slots, within the table, and one that wraps
crashes or writes something. -/
theorem elementTables_of_funcref (P : View) {ts : Array TableData} {i : Nat} {e : Element}
    {tbl : TableData} (h : FuncrefSegment ts e tbl) :
    (∃ f, elementTables P.globals ts i e = .error (.fault f)) ∨
    ∃ p, P.elementPlacement i e = some p ∧
      ((p.stop < 2 ^ 64 ∧ p.stop ≤ tbl.initial.toNat ∧ elementTables P.globals ts i e =
          .ok (ts.modify e.tableIdx.toNat fun t => { t with funcElements := ⟨padPlace tbl.funcElements p⟩ })) ∨
       (2 ^ 64 ≤ p.stop ∧ ((∃ m, elementTables P.globals ts i e = .error (.crash m)) ∨
          ∃ slots, elementTables P.globals ts i e =
            .ok (ts.modify e.tableIdx.toNat fun t => { t with funcElements := slots })))) := by
  obtain ⟨hact, hget, hfun⟩ := h
  generalize hr : elementTables P.globals ts i e = r
  unfold elementTables addElement at hr
  simp only [hact, hget, hfun, Bool.not_true, Bool.false_eq_true, if_false, bne_self_eq_false] at hr
  set V : View := { raw := {}, signatures := #[], globals := P.globals, tables := ts }
  rw [show V.offset = P.offset from offset_congr rfl] at hr
  cases hoff : P.offset (e.offset.getD ByteArray.empty) ["elem", toString i] with
  | error f =>
    rw [hoff] at hr
    exact .inl ⟨f, hr.symm⟩
  | ok off =>
  cases hfs : elementFuncs e ["elem", toString i] with
  | error f =>
    rw [hoff, hfs] at hr
    exact .inl ⟨f, hr.symm⟩
  | ok funcs =>
  rw [hoff, hfs, mapError_ok, ok_bind, mapError_ok, ok_bind] at hr
  have hplace : P.elementPlacement i e = some ⟨off.toNat, funcs⟩ := by
    simp only [elementPlacement, hoff, hfs]
  by_cases hguard : off + funcs.length.toUInt64 > tbl.initial
  · -- past the table, as its end is computed: a fault
    rw [if_pos hguard] at hr
    exact .inl ⟨_, hr.symm⟩
  rw [if_neg hguard] at hr
  rcases writeSlots_guarded tbl.funcElements funcs hguard with
    ⟨hwrap, hfit, hw⟩ | ⟨hwrap, ⟨m, hw⟩ | ⟨slots, hw⟩⟩
  · rw [hw] at hr
    exact .inr ⟨_, hplace, .inl ⟨hwrap, hfit, hr.symm⟩⟩
  · rw [hw] at hr
    exact .inr ⟨_, hplace, .inr ⟨hwrap, .inl ⟨m, hr.symm⟩⟩⟩
  · rw [hw] at hr
    exact .inr ⟨_, hplace, .inr ⟨hwrap, .inr ⟨slots, hr.symm⟩⟩⟩

/-! ## The element stage -/

/-- A view whose tables have no slots written yet. -/
def Unfilled (v : View) : Prop := ∀ tbl ∈ v.tables, tbl.funcElements = #[]

theorem unfilled_push {v : View} (hv : v.Unfilled) (t : TableType) (imported : Bool) :
    ∀ tbl ∈ v.tables.push (.ofType t imported), tbl.funcElements = #[] := by
  intro tbl htbl
  rcases Array.mem_push.mp htbl with htbl | rfl
  · exact hv tbl htbl
  · rfl

theorem addImport_unfilled {v : View} (hv : v.Unfilled) (imp : Import) :
    (addImport v imp).Unfilled := by
  unfold addImport
  split
  · exact hv
  · exact unfilled_push hv _ _
  · exact hv
  · exact hv

/-- The prelude makes every table with no slots. -/
theorem prelude_unfilled {raw : Module} {v : View} (h : prelude raw = .ok v) : v.Unfilled := by
  -- only tables come with slots, and they come with none
  refine prelude_inv Unfilled h (fun tbl htbl => by simp at htbl)
    (fun w imp hw => addImport_unfilled hw imp) (fun _ _ hw => hw) (fun w t hw => unfilled_push hw t false)
    (fun _ _ hw => hw) (fun w _ _ w' hw hstep => ?_) (fun _ _ hw => hw)
  rw [Unfilled, addGlobal_tables hstep]
  exact hw

theorem mapError_bind_pure_eq_error {X : Except Fault View} {g : View → View} {e : Failure}
    (h : (Except.mapError Failure.fault X >>= fun v => (pure (g v) : Except Failure View)) = .error e) :
    ∃ f, e = .fault f := by
  cases X with
  | error f =>
    injection h with h
    exact ⟨f, h.symm⟩
  | ok u => cases h

/-- The prelude fails only with a fault. -/
theorem prelude_error {raw : Module} {e : Failure} (h : prelude raw = .error e) : ∃ f, e = .fault f := by
  unfold prelude at h
  exact mapError_bind_pure_eq_error h

/-- Resolution fails with a fault before the element stage, or is the element stage run over the
globals and the tables of the prelude. -/
theorem ofModule_cases (raw : Module) :
    (∃ f, ofModule raw = .error (.fault f)) ∨
      ∃ P Q : View, prelude raw = .ok P ∧ Q.globals = P.globals ∧
        ofModule raw = (fun ts => { Q with tables := ts }) <$>
          raw.elements.toList.zipIdx.foldlM (fun ts (x, i) => elementTables P.globals ts i x) P.tables := by
  rw [ofModule_eq]
  cases hP : prelude raw with
  | error e =>
    obtain ⟨f, rfl⟩ := prelude_error hP
    exact .inl ⟨f, rfl⟩
  | ok P =>
    rw [ok_bind]
    cases hQ : (foldIndexed P raw.data addData).mapError Failure.fault with
    | error e =>
      obtain ⟨f, -, rfl⟩ := mapError_eq_error hQ
      exact .inl ⟨f, rfl⟩
    | ok Q =>
      -- the data stage changes only the memories
      rw [ok_bind]
      unfold foldIndexed at hQ ⊢
      obtain ⟨hQP, -⟩ := data_frame _ 0 Q (mapError_eq_ok hQ)
      have hglobals : Q.globals = P.globals := by rw [hQP]
      have htables : Q.tables = P.tables := by rw [hQP]
      refine .inr ⟨P, Q, rfl, hglobals, ?_⟩
      rw [elements_foldlM, hglobals, htables]

/-! ## The element stage fills the tables -/

theorem clear_modify (ts : Array TableData) (k : Nat) (slots : Array UInt32) :
    (ts.modify k fun t => { t with funcElements := slots }).map TableData.clear =
      ts.map TableData.clear := by
  apply Array.ext
  · simp
  · intro j hj _
    simp only [Array.getElem_map, Array.getElem_modify]
    split <;> rfl

/-- Tables that agree but for their slots have the same active segments of funcref tables. -/
theorem funcrefSegment_of_clear {ts T : Array TableData}
    (h : ts.map TableData.clear = T.map TableData.clear) {e : Element} {tbl : TableData}
    (hs : FuncrefSegment ts e tbl) : ∃ tbl₀, FuncrefSegment T e tbl₀ ∧ tbl₀.clear = tbl.clear := by
  obtain ⟨hact, hget, hfun⟩ := hs
  have hk := congrArg (·[e.tableIdx.toNat]?) h
  simp only [Array.getElem?_map, hget, Option.map_some] at hk
  cases hT : T[e.tableIdx.toNat]? with
  | none =>
    rw [hT] at hk
    cases hk
  | some tbl₀ =>
    rw [hT, Option.map_some] at hk
    injection hk with hk
    have htype := congrArg TableData.elemType hk
    exact ⟨tbl₀, ⟨hact, hT, htype.symm.trans hfun⟩, hk.symm⟩

theorem WrapsAround.mono {v : View} {es es' : List (Element × Nat)} (h : v.WrapsAround es)
    (hsub : ∀ x ∈ es, x ∈ es') : v.WrapsAround es' := by
  obtain ⟨x, hx, tbl, p, hseg, hp, hwrap⟩ := h
  exact ⟨x, hsub x hx, tbl, p, hseg, hp, hwrap⟩

/-- Whether a segment wraps around reads only the globals and the tables but for their slots. -/
theorem WrapsAround.of_clear {v w : View} {es : List (Element × Nat)} (h : v.WrapsAround es)
    (hg : v.globals = w.globals) (ht : v.tables.map TableData.clear = w.tables.map TableData.clear) :
    w.WrapsAround es := by
  obtain ⟨x, hx, tbl, p, hseg, hp, hwrap⟩ := h
  obtain ⟨tbl', hseg', -⟩ := funcrefSegment_of_clear ht hseg
  exact ⟨x, hx, tbl', p, hseg', elementPlacement_congr hg ▸ hp, hwrap⟩

/-- What the element segments `pre` leave in the tables `ts`, run from the tables of `P`: the
same tables but for their slots, every active segment of a funcref table evaluated, and, when
none of them wraps around, every funcref table holding their placements. -/
structure Filled (P : View) (pre : List (Element × Nat)) (ts : Array TableData) : Prop where
  frame : ts.map TableData.clear = P.tables.map TableData.clear
  evaluated : ∀ x ∈ pre, ∀ tbl, FuncrefSegment P.tables x.1 tbl → (P.elementPlacement x.2 x.1).isSome
  holds : ¬ P.WrapsAround pre → ∀ t (h : t < ts.size), ts[t].elemType = .funcref →
    ts[t].Holds (P.tablePlacements pre t)

theorem Filled.init {P : View} (hP : P.Unfilled) : Filled P [] P.tables := by
  refine ⟨rfl, (fun x hx => by cases hx), fun _ t h _ => ⟨?_, by simp [tablePlacements]⟩⟩
  simp [tablePlacements, hP _ (Array.getElem_mem h)]

theorem Filled.evaluated_append {P : View} {pre : List (Element × Nat)} {ts : Array TableData}
    (hI : Filled P pre ts) {e : Element} {i : Nat}
    (he : ∀ tbl, FuncrefSegment P.tables e tbl → (P.elementPlacement i e).isSome) :
    ∀ x ∈ pre ++ [(e, i)], ∀ tbl, FuncrefSegment P.tables x.1 tbl →
      (P.elementPlacement x.2 x.1).isSome := by
  intro x hx
  rcases List.mem_append.mp hx with hx | hx
  · exact hI.evaluated x hx
  · rw [List.mem_singleton.mp hx]
    exact he

/-- A segment that is not an active one of a funcref table keeps the tables filled. -/
theorem Filled.skip {P : View} {pre : List (Element × Nat)} {ts : Array TableData}
    (hI : Filled P pre ts) {e : Element} (i : Nat) (hseg : ∀ tbl, ¬ FuncrefSegment ts e tbl) :
    Filled P (pre ++ [(e, i)]) ts := by
  refine ⟨hI.frame, hI.evaluated_append fun tbl₀ hseg₀ => ?_, fun hnw t ht hty => ?_⟩
  · obtain ⟨tbl, hseg', -⟩ := funcrefSegment_of_clear hI.frame.symm hseg₀
    exact absurd hseg' (hseg tbl)
  · -- it places nothing into a funcref table
    have hnone : ¬ (e.isActive ∧ e.tableIdx.toNat = t) := by
      rintro ⟨hact, rfl⟩
      exact hseg ts[e.tableIdx.toNat] ⟨hact, Array.getElem?_eq_getElem ht, hty⟩
    rw [tablePlacements_append_singleton, if_neg hnone, List.append_nil]
    exact hI.holds (fun h => hnw (h.mono fun x hx => List.mem_append_left _ hx)) t ht hty

/-- A segment that does not wrap, written within its funcref table, keeps the tables filled. -/
theorem Filled.write {P : View} {pre : List (Element × Nat)} {ts : Array TableData}
    (hI : Filled P pre ts) {e : Element} {i : Nat} {tbl : TableData} {p : Placed UInt32}
    (hseg : FuncrefSegment ts e tbl) (hp : P.elementPlacement i e = some p)
    (hle : p.stop ≤ tbl.initial.toNat) :
    Filled P (pre ++ [(e, i)])
      (ts.modify e.tableIdx.toNat fun t => { t with funcElements := ⟨padPlace tbl.funcElements p⟩ }) := by
  refine ⟨by rw [clear_modify]; exact hI.frame, hI.evaluated_append fun _ _ => by simp [hp],
    fun hnw t ht hty => ?_⟩
  have hnw' : ¬ P.WrapsAround pre := fun h => hnw (h.mono fun x hx => List.mem_append_left _ hx)
  have ht' : t < ts.size := by simpa using ht
  rw [tablePlacements_append_singleton]
  by_cases htk : e.tableIdx.toNat = t
  · -- the table written: one more placement
    subst htk
    obtain ⟨hact, hget, hfun⟩ := hseg
    obtain ⟨hk, rfl⟩ := Array.getElem?_eq_some_iff.mp hget
    rw [if_pos ⟨hact, rfl⟩, hp, Option.toList_some]
    simp only [Array.getElem_modify_self]
    exact (hI.holds hnw' _ hk hfun).write hle
  · -- another table: unchanged
    rw [if_neg fun h => htk h.2, List.append_nil]
    simp only [Array.getElem_modify_of_ne htk] at hty ⊢
    exact hI.holds hnw' t ht' hty

/-- One segment keeps the tables filled, or fails; it crashes only if it wraps around. -/
theorem Filled.step {P : View} {pre : List (Element × Nat)} {ts : Array TableData}
    (hI : Filled P pre ts) (e : Element) (i : Nat) :
    (∃ ts', elementTables P.globals ts i e = .ok ts' ∧ Filled P (pre ++ [(e, i)]) ts') ∨
      ∃ err, elementTables P.globals ts i e = .error err ∧
        ∀ m, err = .crash m → P.WrapsAround [(e, i)] := by
  by_cases hseg : ∃ tbl, FuncrefSegment ts e tbl
  · obtain ⟨tbl, hseg⟩ := hseg
    obtain ⟨tbl₀, hseg₀, -⟩ := funcrefSegment_of_clear hI.frame hseg
    have hwraps : ∀ p, P.elementPlacement i e = some p → 2 ^ 64 ≤ p.stop →
        P.WrapsAround [(e, i)] :=
      fun p hp hwrap => ⟨(e, i), List.mem_singleton_self _, tbl₀, p, hseg₀, hp, hwrap⟩
    rcases elementTables_of_funcref P hseg with
      ⟨f, hf⟩ | ⟨p, hp, ⟨-, hle, hok⟩ | ⟨hwrap, ⟨m, hcrash⟩ | ⟨slots, hok⟩⟩⟩
    · exact .inr ⟨_, hf, fun m hm => by cases hm⟩
    · exact .inl ⟨_, hok, hI.write hseg hp hle⟩
    · exact .inr ⟨_, hcrash, fun _ _ => hwraps p hp hwrap⟩
    · -- a segment that wraps and still writes: no claim on the slots is kept
      refine .inl ⟨_, hok, by rw [clear_modify]; exact hI.frame,
        hI.evaluated_append fun _ _ => by simp [hp], fun hnw => ?_⟩
      exact absurd ((hwraps p hp hwrap).mono fun x hx => List.mem_append_right _ hx) hnw
  · rcases elementTables_of_not_funcref (fun tbl h => hseg ⟨tbl, h⟩) with hok | ⟨f, hf⟩
    · exact .inl ⟨ts, hok, hI.skip i fun tbl h => hseg ⟨tbl, h⟩⟩
    · exact .inr ⟨_, hf, fun m hm => by cases hm⟩

/-- The element stage, from tables with no slots, fills them, or fails; it crashes only on a
segment that wraps around. -/
theorem elements_outcome (P : View) (hP : P.Unfilled) (es : List (Element × Nat)) :
    (∃ ts, es.foldlM (fun ts (x, i) => elementTables P.globals ts i x) P.tables = .ok ts ∧
        Filled P es ts) ∨
      ∃ err, es.foldlM (fun ts (x, i) => elementTables P.globals ts i x) P.tables = .error err ∧
        ∀ m, err = .crash m → P.WrapsAround es := by
  refine foldlM_outcome (fun pre ts => Filled P pre ts)
    (fun err : Failure => ∀ m, err = .crash m → P.WrapsAround es) ?_ (Filled.init hP) rfl
  rintro pre ⟨e, i⟩ rest ts r hpre hI rfl
  rcases hI.step e i with ⟨ts', hok, hI'⟩ | ⟨err, herr, hcrash⟩
  · exact .inl ⟨ts', hok, hI'⟩
  · refine .inr ⟨err, herr, fun m hm => (hcrash m hm).mono fun x hx => ?_⟩
    rw [List.mem_singleton.mp hx, ← hpre]
    exact List.mem_append_right _ List.mem_cons_self

/-! ## Resolved tables -/

/-- Resolution crashes only on an active segment of a funcref table whose end, offset plus count,
reaches 2^64. When none does, every funcref table of the resolved view holds the placements of its
active segments in section order, the last one written winning each slot and the invalid id
standing where none writes, up to the largest end and within the table's initial size; and every
active segment of a funcref table ends within it, so one that ends past it makes resolution fail. -/
theorem element_tables (raw : Module) :
    (∀ msg, ofModule raw = .error (.crash msg) →
      ∃ P, prelude raw = .ok P ∧ P.WrapsAround raw.elements.toList.zipIdx) ∧
    ∀ v, ofModule raw = .ok v → ¬ v.WrapsAround raw.elements.toList.zipIdx →
      (∀ t (ht : t < v.tables.size), v.tables[t].elemType = .funcref →
        v.tables[t].Holds (v.tablePlacements raw.elements.toList.zipIdx t)) ∧
      ∀ x ∈ raw.elements.toList.zipIdx, ∀ tbl, FuncrefSegment v.tables x.1 tbl →
        ∃ p, v.elementPlacement x.2 x.1 = some p ∧ p.stop ≤ tbl.initial.toNat := by
  rcases ofModule_cases raw with ⟨f, hf⟩ | ⟨P, Q, hP, hglobals, hstage⟩
  · -- a fault before the element stage
    rw [hf]
    exact ⟨(fun msg h => by cases h), fun v h => by cases h⟩
  rcases elements_outcome P (prelude_unfilled hP) raw.elements.toList.zipIdx with
    ⟨ts, hts, hfill⟩ | ⟨err, herr, hcrash⟩
  · rw [hstage, hts, map_ok]
    refine ⟨(fun msg h => by cases h), fun v hv hnw => ?_⟩
    cases hv
    -- the resolved view reads the globals of the prelude
    have hg : ({ Q with tables := ts } : View).globals = P.globals := hglobals
    rw [tablePlacements_congr hg, elementPlacement_congr hg]
    have hnw' : ¬ P.WrapsAround raw.elements.toList.zipIdx :=
      fun h => hnw (h.of_clear hg.symm hfill.frame.symm)
    refine ⟨fun t ht hty => hfill.holds hnw' t ht hty, fun x hx tbl hseg => ?_⟩
    -- the segment evaluated, and the table holds its placement
    obtain ⟨tbl₀, hseg₀, -⟩ := funcrefSegment_of_clear hfill.frame hseg
    obtain ⟨p, hp⟩ := Option.isSome_iff_exists.mp (hfill.evaluated x hx tbl₀ hseg₀)
    obtain ⟨hact, hget, hfun⟩ := hseg
    obtain ⟨hk, rfl⟩ := Array.getElem?_eq_some_iff.mp hget
    exact ⟨p, hp, (hfill.holds hnw' _ hk hfun).stop_le (mem_tablePlacements hx hact hp)⟩
  · rw [hstage, herr]
    refine ⟨fun msg h => ⟨P, hP, hcrash msg ?_⟩, fun v h => by cases h⟩
    injection h

/-- One funcref table of eight slots and three active segments: functions 1, 2 and 3 from slot 0,
then function 7 and a null reference from slot 2, then a null reference from slot 4. -/
def overlappingElements : Module where
  tables := #[⟨.funcref, ⟨8, none, false, false⟩⟩]
  elements := #[
    ⟨0, 0, some (constI32 0), 0, .funcref, .funcs [1, 2, 3]⟩,
    ⟨0, 0, some (constI32 2), 0, .funcref, .exprs [⟨#[0xd2, 7, 0x0b]⟩, ⟨#[0xd0, 0x70, 0x0b]⟩]⟩,
    ⟨0, 0, some (constI32 4), 0, .funcref, .exprs [⟨#[0xd0, 0x70, 0x0b]⟩]⟩]

/-- Its resolved view: the table holds 1, 2, 7, and the invalid id for the null reference at slot 3
and for the one at slot 4. -/
def overlappingView : View where
  raw := overlappingElements
  signatures := #[]
  tables := #[⟨8, .funcref, false, #[1, 2, 7, invalidFunc, invalidFunc]⟩]

/-- One funcref table with no slots and one active segment of one function at offset 2^64 - 1,
given as an i64: its end wraps to 0. -/
def wrappingElement : Module where
  tables := #[⟨.funcref, ⟨0, none, false, false⟩⟩]
  elements := #[⟨0, 0, some (constI64 (-1)), 0, .funcref, .funcs [0]⟩]

/-- Overlapping segments resolve to their overlay, and a segment whose end wraps crashes
resolution. -/
theorem element_tables_overlapping_and_wrapping :
    (ofModule overlappingElements = .ok overlappingView ∧
      ¬ overlappingView.WrapsAround overlappingElements.elements.toList.zipIdx ∧
      ∀ t (ht : t < overlappingView.tables.size), overlappingView.tables[t].elemType = .funcref →
        overlappingView.tables[t].Holds
          (overlappingView.tablePlacements overlappingElements.elements.toList.zipIdx t)) ∧
    (ofModule wrappingElement =
        .error (.crash "runtime error: slice bounds out of range [18446744073709551615:0]") ∧
      ∃ P, prelude wrappingElement = .ok P ∧ P.WrapsAround wrappingElement.elements.toList.zipIdx) := by
  have hv : ofModule overlappingElements = .ok overlappingView := by cbv
  have hplaced : overlappingElements.elements.toList.zipIdx.map
      (fun x => overlappingView.elementPlacement x.2 x.1) =
      [some ⟨0, [1, 2, 3]⟩, some ⟨2, [7, invalidFunc]⟩, some ⟨4, [invalidFunc]⟩] := by cbv
  have hnw : ¬ overlappingView.WrapsAround overlappingElements.elements.toList.zipIdx := by
    rintro ⟨x, hx, tbl, p, -, hp, hwrap⟩
    have hmem : overlappingView.elementPlacement x.2 x.1 ∈ overlappingElements.elements.toList.zipIdx.map
        (fun x => overlappingView.elementPlacement x.2 x.1) := List.mem_map_of_mem hx
    rw [hplaced, hp] at hmem
    simp only [List.mem_cons, Option.some.injEq, List.not_mem_nil, or_false] at hmem
    rcases hmem with rfl | rfl | rfl <;> simp [Placed.stop] at hwrap
  have hcrash : ofModule wrappingElement =
      .error (.crash "runtime error: slice bounds out of range [18446744073709551615:0]") := by cbv
  exact ⟨⟨hv, hnw, ((element_tables overlappingElements).2 _ hv hnw).1⟩, hcrash,
    (element_tables wrappingElement).1 _ hcrash⟩

/-- A binary with one funcref table of one slot and an active segment listing function 0 at
offset `i64.const -1`: the segment ends at `2 ^ 64`, past the table. -/
def wrappingElementBytes : ByteArray :=
  ⟨#[0x00, 0x61, 0x73, 0x6d, 0x01, 0x00, 0x00, 0x00, 0x04, 0x04, 0x01, 0x70, 0x00, 0x01,
    0x09, 0x07, 0x01, 0x00, 0x42, 0x7f, 0x0b, 0x01, 0x00]⟩

/-- Parsing that binary crashes instead of failing with an error. -/
theorem wrapping_segment_crashes :
    parse wrappingElementBytes =
      .error (.crash "runtime error: slice bounds out of range [18446744073709551615:0]") := by
  cbv

end WasmImage.View
