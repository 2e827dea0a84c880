import WasmImage.Proofs.Instantiation
import WasmImage.Proofs.Globals
import WasmImage.Proofs.Build
import WasmImage.Proofs.RoundTrip

/-!
# The image is the initial state of an instance

Resolution and the image builder against instantiation (`Wasm.Module.Instantiates`), for a decoded
module that imports only functions:

* the globals: an entry of the resolved view knows a value exactly when instantiation gives its
  global a number, and then knows its bits (`GlobalData.Agrees`); so every offset resolves to the
  offset instantiation computes (`offset_of_spec`);
* the memories: resolution adds each active data segment to its memory at that offset
  (`data_stage`), and building lays them over zeros in order, as instantiation writes them;
* the tables: a funcref table holds the overlay of its active segments' functions, and
  instantiation the overlay of their references, the invalid id standing for null; no other
  table gets a slot (`elements_other`).

So when resolving and building succeed, the image holds the instance's state
(`Image.build_captures_instance`). Conversely a data segment past its memory makes building fail,
and an element segment past a funcref table makes resolution fail. An element segment of an
externref table is never checked: resolution skips tables that do not hold functions, so such a
segment past its table leaves both to succeed although instantiation traps
(`Image.externref_segment_past_table_builds`).
-/

namespace WasmImage

open Wasm

/-! ## Modules that import only functions -/

namespace Wasm.Module.ImportsOnlyFuncs

variable {m : Module}

theorem importedGlobals_eq (h : m.ImportsOnlyFuncs) : m.importedGlobals = #[] := by
  refine Array.filterMap_eq_empty_iff.mpr fun imp himp => ?_
  have hk := h imp himp
  cases hd : imp.desc <;> simp_all [ImportDesc.kind]

theorem importedMemories_eq (h : m.ImportsOnlyFuncs) : m.importedMemories = #[] := by
  refine Array.filterMap_eq_empty_iff.mpr fun imp himp => ?_
  have hk := h imp himp
  cases hd : imp.desc <;> simp_all [ImportDesc.kind]

theorem importedTables_eq (h : m.ImportsOnlyFuncs) : m.importedTables = #[] := by
  refine Array.filterMap_eq_empty_iff.mpr fun imp himp => ?_
  have hk := h imp himp
  cases hd : imp.desc <;> simp_all [ImportDesc.kind]

end Wasm.Module.ImportsOnlyFuncs

/-! ## Globals -/

namespace View

/-- `global.get j` as a resolved view answers it: entry `j` of `gs` when it holds a number. -/
def numericIn (gs : List ConstValue) : GlobalLookup := fun j => (lookupIn gs j).filter (·.type.isNumeric)

/-- A resolved global agrees with the value `c` instantiation gives it: the same type, and `c`'s
bits known exactly when `c` is a number. -/
def GlobalData.Agrees (d : GlobalData) (c : ConstValue) : Prop :=
  d.type = c.type ∧ d.value = if c.type.isNumeric then some c.bits else none

theorem numericIn_of_numeric {gs : List ConstValue} {j : UInt32} {c : ConstValue}
    (h : lookupIn gs j = some c) (hc : c.type.isNumeric = true) : numericIn gs j = some c := by
  simp [numericIn, h, hc]

theorem lookupIn_of_numericIn {gs : List ConstValue} {j : UInt32} {c : ConstValue}
    (h : numericIn gs j = some c) : lookupIn gs j = some c := by
  simp only [numericIn, Option.filter_eq_some_iff] at h
  exact h.1

/-- Entries that agree with clean values answer `global.get` below `n` with the numbers among
them. -/
theorem knownBelow_agrees {ds : Array GlobalData} {gs : List ConstValue} {n : Nat}
    (hclean : ∀ c ∈ gs, c.Clean) (hn : n ≤ gs.length)
    (hagree : ∀ j (hj : j < gs.length), j < n → ∃ d, ds[j]? = some d ∧ d.Agrees gs[j]) :
    knownBelow ds n = numericIn (gs.take n) := by
  funext j
  unfold knownBelow numericIn lookupIn
  by_cases hj : j.toNat < n
  · obtain ⟨d, hd, htype, hvalue⟩ := hagree j.toNat (by omega) hj
    rw [if_pos hj, List.getElem?_take_of_lt hj, List.getElem?_eq_getElem (by omega)]
    by_cases hnum : gs[j.toNat].type.isNumeric = true
    · -- a number is not null, so the view's value is the instance's
      rw [if_pos hnum] at hvalue
      have heta := (hclean _ (List.getElem_mem (by omega))).eta hnum
      simp [knownGlobal, hd, hvalue, htype, hnum, heta, Option.filter_some]
    · rw [if_neg hnum] at hvalue
      simp [knownGlobal, hd, hvalue, hnum, Option.filter_some]
  · rw [if_neg hj, List.getElem?_eq_none (by simp; omega)]
    rfl

/-- The globals resolution gives a module that imports no globals agree with the values
instantiation gives them. -/
theorem GlobalsResolved.agrees {raw : Module} {ds : Array GlobalData} {gs : List ConstValue}
    (hres : GlobalsResolved raw raw.globals.size ds) (hvals : raw.GlobalValues gs)
    (himp : raw.importedGlobals = #[]) :
    ∀ j (hj : j < gs.length), ∃ d, ds[j]? = some d ∧ d.Agrees gs[j] := by
  have hclean := hvals.clean
  have hlen := hvals.length
  intro j
  -- each global is resolved over the ones before it, which agree already
  induction j using Nat.strong_induction_on with
  | _ i ih =>
    intro hi
    obtain ⟨g, d, hg, hd, hresolves⟩ := hres.defined i (by omega)
    simp only [himp, Array.size_empty, Nat.zero_add] at hd hresolves
    have hknown : knownBelow ds i = numericIn (gs.take i) :=
      knownBelow_agrees hclean (by omega) fun j hj hji => ih j hji hj
    rw [hknown] at hresolves
    obtain ⟨hgi, rfl⟩ := Array.getElem?_eq_some_iff.mp hg
    obtain ⟨heval, htype⟩ := hvals.value i hi (by omega)
    refine ⟨d, hd, hresolves.type.trans htype.symm, ?_⟩
    split
    · -- a number: the resolver evaluates the initializer to it
      rename_i hnum
      have hrestrict := heval.restrict hnum fun j c hc hcn => numericIn_of_numeric hc hcn
      exact (hresolves.value _).mpr ⟨_, hrestrict.eval, hnum, htype, rfl⟩
    · -- a reference: whatever the resolver evaluates is the same reference
      rename_i hnum
      cases hv : d.value with
      | none => rfl
      | some bits =>
        obtain ⟨c, hc, hcnum, -⟩ := (hresolves.value bits).mp hv
        have hG : ∀ j c, (some (numericIn (gs.take i))).bind (· j) = some c →
            (some (lookupIn (gs.take i))).bind (· j) = some c := fun j c hj => lookupIn_of_numericIn hj
        have hc' := ConstExpr.eval_mono hc hG
        rw [heval.eval] at hc'
        cases hc'
        exact absurd hcnum hnum

/-- Over globals that agree with the instance's, `global.get` reads the numbers among them. -/
theorem knownGlobal_agrees {ds : Array GlobalData} {gs : List ConstValue}
    (hclean : ∀ c ∈ gs, c.Clean) (hsize : ds.size = gs.length)
    (hagree : ∀ j (hj : j < gs.length), ∃ d, ds[j]? = some d ∧ d.Agrees gs[j]) :
    knownGlobal ds = numericIn gs := by
  rw [← knownBelow_size, hsize, knownBelow_agrees hclean le_rfl fun j hj _ => hagree j hj,
    List.take_length]

/-! ## Offsets and items -/

/-- An offset that resolves does so whatever the path its faults would name. -/
theorem offset_path {v : View} {e : ByteArray} {path : List String} {o : UInt64}
    (h : v.offset e path = .ok o) (path' : List String) : v.offset e path' = .ok o := by
  unfold View.offset at h ⊢
  cases hc : ConstValue.eval e (some (knownGlobal v.globals)) with
  | error err =>
    rw [hc] at h
    cases h
  | ok c =>
    rw [hc] at h
    dsimp only at h ⊢
    split at h
    · rw [if_pos ‹_›]
      exact h
    · rw [if_neg ‹_›]
      split at h
      · rw [if_pos ‹_›]
        exact h
      · cases h

/-- An offset instantiation computes is the one resolution gives, when the view's globals answer
`global.get` with the numbers among the instance's. -/
theorem offset_of_spec {v : View} {gs : List ConstValue} (hv : knownGlobal v.globals = numericIn gs)
    {e : ByteArray} {o : Nat} (h : ConstExpr.Offset (lookupIn gs) e o) (path : List String) :
    ∃ off, v.offset e path = .ok off ∧ off.toNat = o := by
  obtain ⟨c, hc, hty, rfl⟩ := h
  have hnum : c.type.isNumeric = true := by simp [hty, ValType.isNumeric]
  have heval := (hc.restrict hnum fun j d hd hdn => numericIn_of_numeric hd hdn).eval
  refine ⟨c.bits &&& 0xffffffff, ?_, ?_⟩
  · simp [View.offset, hv, heval, hty]
  · rw [UInt64.toNat_and, UInt64.toNat_toUInt32,
      show (0xffffffff : UInt64).toNat = 2 ^ 32 - 1 from rfl, Nat.and_two_pow_sub_one_eq_mod]

/-- Item by item, the functions a segment's expressions evaluate to with no globals are the
references instantiation evaluates them to, the invalid id standing for null. -/
theorem mapM_refs {F : ByteArray × Nat → Except Fault UInt32} {G : GlobalLookup} {t : ValType}
    (hF : ∀ x j f, F (x, j) = .ok f →
      ∃ c, ConstValue.eval x none = .ok c ∧ f = if c.null then invalidFunc else c.bits.toUInt32) :
    ∀ {es : List ByteArray} {rs : List (Option UInt32)} (n : Nat) {funcs : List UInt32},
      List.Forall₂ (fun x r => ∃ v, ConstExpr.Evaluates G x v ∧ v.type = t ∧ r = v.ref) es rs →
      (es.zipIdx n).mapM F = .ok funcs → rs.map (·.getD invalidFunc) = funcs
  | [], [], _, _, .nil, h => by
    cases h
    rfl
  | x :: es, r :: rs, n, funcs, .cons hxr hrest, h => by
    rw [List.zipIdx_cons, List.mapM_cons] at h
    obtain ⟨f, hx, h⟩ := bind_eq_ok h
    obtain ⟨fs, hfs, h⟩ := bind_eq_ok h
    cases h
    obtain ⟨v, hv, -, rfl⟩ := hxr
    obtain ⟨c, hc, rfl⟩ := hF x n f hx
    -- with no globals the evaluator gives what it gives with the instance's
    have hc' := ConstExpr.eval_mono (G := some G) hc fun j c h => by cases h
    rw [hv.eval] at hc'
    cases hc'
    rw [List.map_cons, mapM_refs hF (n + 1) hrest hfs]
    unfold ConstValue.ref
    split <;> rfl

/-- The functions resolution lists for an element segment are the references instantiation
evaluates it to, the invalid id standing for null. -/
theorem elementFuncs_refs {e : Element} {path : List String} {funcs : List UInt32}
    (hf : elementFuncs e path = .ok funcs) {G : GlobalLookup} {t : ValType}
    {rs : List (Option UInt32)} (hrs : e.Refs G t rs) : rs.map (·.getD invalidFunc) = funcs := by
  unfold elementFuncs at hf
  unfold Element.Refs at hrs
  split at hf
  · rename_i fs hitems
    rw [hitems] at hrs
    obtain ⟨-, rfl⟩ := hrs
    cases hf
    simp
  · rename_i es hitems
    rw [hitems] at hrs
    refine mapM_refs (fun x j f hx => ?_) 0 hrs hf
    dsimp only at hx
    split at hx
    · rename_i c hc
      cases hx
      exact ⟨c, hc, rfl⟩
    · cases hx

/-- Functions an element segment lists do not depend on the path its faults would name. -/
theorem elementFuncs_path {e : Element} {path : List String} {funcs : List UInt32}
    (h : elementFuncs e path = .ok funcs) (path' : List String) : elementFuncs e path' = .ok funcs := by
  unfold elementFuncs at h ⊢
  cases hitems : e.items with
  | funcs fs =>
    simp only [hitems] at h ⊢
    exact h
  | exprs es =>
    simp only [hitems] at h ⊢
    refine mapM_eq_ok_of (fun x f hx => ?_) h
    obtain ⟨x, j⟩ := x
    dsimp only at hx ⊢
    cases hc : ConstValue.eval x none with
    | error err =>
      rw [hc] at hx
      cases hx
    | ok c =>
      rw [hc] at hx
      exact hx

/-- An element segment lists one function per item. -/
theorem elementFuncs_length {e : Element} {path : List String} {funcs : List UInt32}
    (h : elementFuncs e path = .ok funcs) : funcs.length = e.count := by
  unfold elementFuncs at h
  unfold Element.count
  cases hitems : e.items with
  | funcs fs =>
    simp only [hitems] at h
    cases h
    rfl
  | exprs es =>
    simp only [hitems] at h
    rw [length_of_mapM_eq_ok h, List.length_zipIdx]

/-! ## The element stage -/

/-- A segment's placement is its offset and its functions. -/
theorem elementPlacement_eq_some {v : View} {i : Nat} {e : Element} {p : Placed UInt32}
    (h : v.elementPlacement i e = some p) :
    ∃ off funcs, v.offset (e.offset.getD ByteArray.empty) ["elem", toString i] = .ok off ∧
      elementFuncs e ["elem", toString i] = .ok funcs ∧ p = ⟨off.toNat, funcs⟩ := by
  unfold elementPlacement at h
  cases hoff : v.offset (e.offset.getD ByteArray.empty) ["elem", toString i] <;>
    cases hfs : elementFuncs e ["elem", toString i] <;> rw [hoff, hfs] at h <;> try cases h
  exact ⟨_, _, rfl, rfl, rfl⟩

/-- Where a segment stands in its section changes nothing of its placement. -/
theorem elementPlacement_index {v : View} {i : Nat} {e : Element} {p : Placed UInt32}
    (h : v.elementPlacement i e = some p) (j : Nat) : v.elementPlacement j e = some p := by
  obtain ⟨off, funcs, hoff, hfs, rfl⟩ := elementPlacement_eq_some h
  simp only [elementPlacement, offset_path hoff, elementFuncs_path hfs]

theorem elementPlacement_zero (v : View) (i : Nat) (e : Element) :
    v.elementPlacement i e = v.elementPlacement 0 e := by
  cases h : v.elementPlacement 0 e with
  | some p => exact elementPlacement_index h i
  | none =>
    cases h' : v.elementPlacement i e with
    | none => rfl
    | some p =>
      rw [elementPlacement_index h' 0] at h
      cases h

/-- The placements into table `t` are those of its active segments, in section order. -/
theorem tablePlacements_zipIdx (v : View) (t : Nat) : ∀ (es : List Element) (n : Nat),
    v.tablePlacements (es.zipIdx n) t =
      (es.filter fun e => e.isActive && e.tableIdx.toNat == t).filterMap (v.elementPlacement 0)
  | [], _ => rfl
  | e :: es, n => by
    have ih := tablePlacements_zipIdx v t es (n + 1)
    unfold tablePlacements at ih ⊢
    rw [List.zipIdx_cons, List.filterMap_cons, ih]
    dsimp only
    rw [elementPlacement_zero v n e, List.filter_cons]
    by_cases h : e.isActive = true ∧ e.tableIdx.toNat = t
    · rw [if_pos h, if_pos (by simp [h.1, h.2]), List.filterMap_cons]
    · simp only [if_neg h]
      rw [if_neg (by simpa using h)]

/-- A segment writes no slot of a table that does not hold functions. -/
theorem elementTables_other (P : View) {ts ts' : Array TableData} {i : Nat} {e : Element}
    (h : elementTables P.globals ts i e = .ok ts') {t : Nat}
    (ht : ∀ tbl, ts[t]? = some tbl → tbl.elemType ≠ .funcref) : ts'[t]? = ts[t]? := by
  by_cases hseg : ∃ tbl, FuncrefSegment ts e tbl
  · obtain ⟨tbl, hseg⟩ := hseg
    have hne : e.tableIdx.toNat ≠ t := by
      rintro rfl
      exact ht tbl hseg.2.1 hseg.2.2
    -- the segment writes its own table only
    rcases elementTables_of_funcref P hseg with
      ⟨f, hf⟩ | ⟨p, -, ⟨-, -, hok⟩ | ⟨-, ⟨m, hf⟩ | ⟨slots, hok⟩⟩⟩
    · rw [hf] at h
      cases h
    · rw [hok] at h
      cases h
      simp [Array.getElem?_modify, hne]
    · rw [hf] at h
      cases h
    · rw [hok] at h
      cases h
      simp [Array.getElem?_modify, hne]
  · rcases elementTables_of_not_funcref (fun tbl h => hseg ⟨tbl, h⟩) with hok | ⟨f, hf⟩
    · rw [hok] at h
      cases h
      rfl
    · rw [hf] at h
      cases h

/-- The element stage writes no slot of a table that does not hold functions. -/
theorem elements_other (P : View) : ∀ (es : List (Element × Nat)) (ts ts' : Array TableData),
    es.foldlM (fun ts (x, i) => elementTables P.globals ts i x) ts = .ok ts' → ∀ t : Nat,
      (∀ tbl, ts[t]? = some tbl → tbl.elemType ≠ .funcref) → ts'[t]? = ts[t]?
  | [], ts, ts', h, t, _ => by
    rw [List.foldlM_nil] at h
    cases h
    rfl
  | (e, i) :: es, ts, ts', h, t, ht => by
    rw [List.foldlM_cons] at h
    obtain ⟨ts₁, h₁, h⟩ := bind_eq_ok h
    have hkeep := elementTables_other P h₁ ht
    rw [elements_other P es ts₁ ts' h t (fun tbl htbl => ht tbl (hkeep ▸ htbl)), hkeep]

/-- An active segment of a funcref table whose offset resolves and whose end, not wrapping, lies
past the table makes the element stage fail. -/
theorem elements_fail_past {P : View} : ∀ (es : List (Element × Nat)) {pre : List (Element × Nat)}
    {ts : Array TableData}, Filled P pre ts → ∀ x ∈ es, ∀ tbl off, FuncrefSegment P.tables x.1 tbl →
      P.offset (x.1.offset.getD ByteArray.empty) ["elem", toString x.2] = .ok off →
      off.toNat + x.1.count < 2 ^ 64 → tbl.initial.toNat < off.toNat + x.1.count →
      ∃ err, es.foldlM (fun ts (x, i) => elementTables P.globals ts i x) ts = .error err
  | [], _, _, _, _, hx, _, _, _, _, _, _ => by cases hx
  | (e, i) :: es, pre, ts, hI, x, hx, tbl, off, hseg, hoff, hwrap, hpast => by
    rw [List.foldlM_cons]
    dsimp only
    rcases List.mem_cons.mp hx with rfl | hx
    · -- this segment: it is written within its table, or fails
      obtain ⟨tbl₀, hseg₀, hclear⟩ := funcrefSegment_of_clear hI.frame.symm hseg
      have hinit : tbl₀.clear.initial = tbl.clear.initial := congrArg TableData.initial hclear
      simp only [TableData.clear] at hinit
      rcases elementTables_of_funcref P hseg₀ with
        ⟨f, hf⟩ | ⟨p, hp, ⟨-, hle, -⟩ | ⟨hwrap', -⟩⟩
      · exact ⟨.fault f, by rw [hf]; rfl⟩
      -- otherwise its placement is its offset and its items, which do not fit
      all_goals
        obtain ⟨off', funcs, hoff', hfs, rfl⟩ := elementPlacement_eq_some hp
        rw [hoff] at hoff'
        cases hoff'
        have hlen := elementFuncs_length hfs
      · rw [hinit] at hle
        simp only [Placed.stop] at hle
        omega
      · simp only [Placed.stop] at hwrap'
        omega
    · rcases hI.step e i with ⟨ts', hok, hI'⟩ | ⟨err, herr, -⟩
      · rw [hok]
        exact elements_fail_past es hI' x hx tbl off hseg hoff hwrap hpast
      · exact ⟨err, by rw [herr]; rfl⟩

/-- A resolved module is its prelude, then its data segments over the prelude's view, then its
element segments filling the prelude's tables; the globals stay those of the prelude. -/
theorem ofModule_stages {raw : Module} {v : View} (h : ofModule raw = .ok v) :
    ∃ P Q, prelude raw = .ok P ∧ foldIndexed P raw.data addData = .ok Q ∧
      Q = { P with memories := Q.memories } ∧ v = { Q with tables := v.tables } ∧
      raw.elements.toList.zipIdx.foldlM (fun ts (x, i) => elementTables P.globals ts i x) P.tables =
        .ok v.tables ∧ Filled P raw.elements.toList.zipIdx v.tables := by
  rw [ofModule_eq] at h
  obtain ⟨P, hP, h⟩ := bind_eq_ok h
  obtain ⟨Q, hQ, h⟩ := bind_eq_ok h
  have hQ' := mapError_eq_ok hQ
  obtain ⟨hQP, -⟩ := data_frame _ 0 Q hQ'
  unfold foldIndexed at h
  rw [elements_foldlM] at h
  obtain ⟨ts, hts, rfl⟩ := map_eq_ok h
  -- the element stage reads the globals and the tables the prelude made
  have hglobals : Q.globals = P.globals := by rw [hQP]
  have htables : Q.tables = P.tables := by rw [hQP]
  rw [hglobals, htables] at hts
  rcases elements_outcome P (prelude_unfilled hP) raw.elements.toList.zipIdx with
    ⟨ts', hts', hfill⟩ | ⟨err, herr, -⟩
  · rw [hts] at hts'
    cases hts'
    exact ⟨P, Q, hP, hQ', hQP, rfl, hts, hfill⟩
  · rw [hts] at herr
    cases herr

/-! ## The data stage -/

/-- The offset resolution gives data segment `d` over the globals of `v`, or zero where it fails. -/
def dataOffset (v : View) (d : DataSegment) : UInt64 :=
  (v.offset (d.offset.getD ByteArray.empty) []).toOption.getD 0

theorem dataOffset_eq {v : View} {d : DataSegment} {path : List String} {o : UInt64}
    (h : v.offset (d.offset.getD ByteArray.empty) path = .ok o) : dataOffset v d = o := by
  simp [dataOffset, offset_path h [], Except.toOption]

/-- An active segment that resolution adds has a memory and an offset. -/
theorem addData_active_ok {v w : View} {i : Nat} {d : DataSegment} (h : addData v i d = .ok w)
    (hact : d.isActive = true) :
    d.memIdx.toNat < v.memories.size ∧ ∃ off, v.offset (d.offset.getD ByteArray.empty) ["data", toString i] = .ok off := by
  unfold addData at h
  simp only [hact, Bool.not_true, Bool.false_eq_true, if_false, bind, Except.bind] at h
  split at h
  · cases h
  · rename_i hidx
    split at h
    · cases h
    · rename_i off hoff
      exact ⟨by omega, off, hoff⟩

/-- Every active segment of a data stage that succeeds has a memory and resolves its offset, over
the globals the stage starts from. -/
theorem data_resolves : ∀ (D : List DataSegment) (n : Nat) (v w : View),
    (D.zipIdx n).foldlM (fun v (x, i) => addData v i x) v = .ok w →
      ∀ d ∈ D, d.isActive → d.memIdx.toNat < v.memories.size ∧
        ∀ path, v.offset (d.offset.getD ByteArray.empty) path = .ok (dataOffset v d)
  | [], _, _, _, _, _, hd, _ => by cases hd
  | d :: D, n, v, w, h, d', hd', hact => by
    rw [List.zipIdx_cons, List.foldlM_cons] at h
    obtain ⟨u, hu, h⟩ := bind_eq_ok h
    rcases List.mem_cons.mp hd' with rfl | hd'
    · obtain ⟨hidx, off, hoff⟩ := addData_active_ok hu hact
      exact ⟨hidx, fun path => by rw [dataOffset_eq hoff]; exact offset_path hoff path⟩
    · -- a segment changes only the segments of the memories
      obtain ⟨hu', hclear⟩ := data_frame [d] n u (by simpa using hu)
      have hglobals : u.globals = v.globals := by rw [hu']
      have hsize : u.memories.size = v.memories.size := by
        simpa using congrArg Array.size hclear
      obtain ⟨hidx, hoff⟩ := data_resolves D (n + 1) u w h d' hd' hact
      rw [hsize] at hidx
      rw [offset_congr hglobals] at hoff
      have hdo : dataOffset u d' = dataOffset v d' := by simp only [dataOffset, offset_congr hglobals]
      exact ⟨hidx, fun path => hdo ▸ hoff path⟩

/-- A data stage that succeeds adds, to each memory, its active segments in order, each at its
offset. -/
theorem data_stage {v w : View} {D : List DataSegment}
    (h : (D.zipIdx 0).foldlM (fun v (x, i) => addData v i x) v = .ok w) :
    w.memories = v.memories.mapIdx fun j md =>
      { md with segments := md.segments ++ placedSegments D (dataOffset v) j } := by
  rw [placedData_foldlM (dataOffset v) D 0 v (data_resolves D 0 v w h)] at h
  cases h
  rfl

theorem placedSegments_placed (D : List DataSegment) (off : DataSegment → UInt64) (j : Nat) :
    (placedSegments D off j).toList.map Segment.placed =
      (D.filter fun d => d.isActive && d.memIdx.toNat == j).map
        fun d => ⟨(off d).toNat, d.init.data.toList⟩ := by
  simp [placedSegments, Segment.placed]

/-! ## The globals of the image -/

/-- The value a global that agrees with `c` leaves in the image: `c` cut to its type, when it is
a number. -/
theorem GlobalData.Agrees.known {d : GlobalData} {c : ConstValue} (h : d.Agrees c) :
    d.value.bind (Value.ofBits? d.type) = Value.ofBits? c.type c.bits := by
  obtain ⟨htype, hvalue⟩ := h
  rw [hvalue, htype]
  split
  · rfl
  · rename_i hnum
    simp_all [Value.ofBits?, ValType.isNumeric, ValType.isNarrow]

theorem GlobalMap.get?_cons (k : UInt32) (w : Value) (g : GlobalMap) (j : UInt32) :
    GlobalMap.get? ((k, w) :: g) j = if k = j then some w else g.get? j := by
  by_cases h : k = j <;> simp [GlobalMap.get?, h]

/-- Looking up an id in a map built from indices below 2^32, one entry for each index that has a
value, finds the value of that index. -/
theorem get?_foldr {G : Nat → Option Value} {F : Nat → GlobalMap → GlobalMap}
    (hF : ∀ i acc, F i acc = match G i with
      | some val => (i.toUInt32, val) :: acc
      | none => acc) (j : UInt32) :
    ∀ l : List Nat, (∀ i ∈ l, i < 2 ^ 32) →
      (l.foldr F []).get? j = if j.toNat ∈ l then G j.toNat else none
  | [], _ => rfl
  | i :: l, hl => by
    have ih := get?_foldr hF j l fun k hk => hl k (List.mem_cons_of_mem i hk)
    have hi : i < 2 ^ 32 := hl i List.mem_cons_self
    rw [List.foldr_cons, hF]
    by_cases hij : i = j.toNat
    · subst hij
      cases hG : G j.toNat with
      | some val =>
        rw [GlobalMap.get?_cons, if_pos (by simp), if_pos List.mem_cons_self]
      | none => simp [ih, hG]
    · have hne : i.toUInt32 ≠ j := by
        rintro rfl
        have hi' : i < 4294967296 := hi
        exact hij (by simp [Nat.toUInt32]; omega)
      have hmem : j.toNat ∈ i :: l ↔ j.toNat ∈ l := by simp [Ne.symm hij]
      cases hGi : G i with
      | some val =>
        dsimp only
        rw [GlobalMap.get?_cons, if_neg hne, ih]
        simp only [hmem]
      | none =>
        dsimp only
        rw [ih]
        simp only [hmem]

/-- Global `j` of the image of `v`: the value of view global `j`, cut to its type, when it is a
known number. Ids are 32 bits, and the view has no more globals than they name. -/
theorem knownGlobals_get? (v : View) (hsize : v.globals.size ≤ 2 ^ 32) (j : UInt32) :
    (Image.knownGlobals v).get? j =
      v.globals[j.toNat]?.bind fun g => g.value.bind (Value.ofBits? g.type) := by
  unfold Image.knownGlobals
  rw [get?_foldr (G := fun i => v.globals[i]?.bind fun g => g.value.bind (Value.ofBits? g.type))
    (fun i acc => by cases v.globals[i]? <;> rfl) j _ (fun i hi => by simp at hi; omega)]
  split
  · rfl
  · rename_i hj
    rw [Array.getElem?_eq_none (by simpa using hj)]
    rfl

/-! ## The resolved memories -/

/-- Memory `j` of a module whose data stage succeeds: memory `j` of the module, holding its
active data segments in order, each at the offset it resolves to. -/
theorem stage_memory {raw : Module} {P Q : View} (hP : prelude raw = .ok P)
    (himp : raw.ImportsOnlyFuncs) (hQ : foldIndexed P raw.data addData = .ok Q) :
    Q.memories.size = raw.memories.size ∧ ∀ j l, raw.memories[j]? = some l →
      Q.memories[j]? = some
        { MemoryData.ofLimits l false with segments := placedSegments raw.data.toList (dataOffset P) j } := by
  obtain ⟨-, hpm, -, -⟩ := prelude_spaces hP
  rw [himp.importedMemories_eq, Array.map_empty, Array.empty_append] at hpm
  have hQm := data_stage hQ
  refine ⟨by rw [hQm, Array.size_mapIdx, hpm, Array.size_map], fun j l hl => ?_⟩
  simp [hQm, hpm, hl, MemoryData.ofLimits]

/-- The data segments of a decoded module are shorter than 2^32 bytes, so the segments of its
resolved memories are shorter than 2^63. -/
theorem stage_segments_small {raw : Module} {P Q : View} (hP : prelude raw = .ok P)
    (himp : raw.ImportsOnlyFuncs) (hQ : foldIndexed P raw.data addData = .ok Q)
    (hdata : ∀ d ∈ raw.data, d.init.size < 2 ^ 32) :
    ∀ md ∈ Q.memories, ∀ seg ∈ md.segments, seg.data.size < 2 ^ 63 := by
  intro md hmd seg hseg
  obtain ⟨hsize, hQj⟩ := stage_memory hP himp hQ
  obtain ⟨j, hj⟩ := Array.mem_iff_getElem?.mp hmd
  have hjl : j < raw.memories.size := hsize ▸ (Array.getElem?_eq_some_iff.mp hj).1
  rw [hQj j _ (Array.getElem?_eq_getElem hjl), Option.some.injEq] at hj
  subst hj
  simp only [placedSegments, List.mem_toArray, List.mem_map, List.mem_filter] at hseg
  obtain ⟨d, ⟨hd, -⟩, rfl⟩ := hseg
  have := hdata d (Array.mem_toList_iff.mp hd)
  show d.init.size < 2 ^ 63
  omega

/-- The globals of a module's prelude agree with the values instantiation gives them. -/
theorem prelude_agrees {raw : Module} {P : View} (hP : prelude raw = .ok P)
    (himp : raw.ImportsOnlyFuncs) {gs : List ConstValue} (hvals : raw.GlobalValues gs) :
    P.globals.size = gs.length ∧
      ∀ j (hj : j < gs.length), ∃ d, P.globals[j]? = some d ∧ d.Agrees gs[j] := by
  have hres := prelude_globalsResolved hP
  have himpG := himp.importedGlobals_eq
  refine ⟨?_, hres.agrees hvals himpG⟩
  rw [hres.size, himpG, hvals.length, Array.size_empty, Nat.zero_add]

/-- So the prelude answers `global.get` with the numbers among those values. -/
theorem prelude_knownGlobal {raw : Module} {P : View} (hP : prelude raw = .ok P)
    (himp : raw.ImportsOnlyFuncs) {gs : List ConstValue} (hvals : raw.GlobalValues gs) :
    knownGlobal P.globals = numericIn gs :=
  knownGlobal_agrees hvals.clean (prelude_agrees hP himp hvals).1 (prelude_agrees hP himp hvals).2

end View

/-! ## What instantiation leaves -/

namespace Wasm

/-- An offset is an i32, read as unsigned: below 2^32. -/
theorem ConstExpr.Offset.lt {G : GlobalLookup} {e : ByteArray} {o : Nat} (h : ConstExpr.Offset G e o) :
    o < 2 ^ 32 := by
  obtain ⟨v, -, -, rfl⟩ := h
  exact v.bits.toUInt32.toNat_lt

/-- A decoded element segment has fewer than 2^32 items. -/
theorem Element.WF.count_lt {e : Element} (h : e.WF) : e.count < 2 ^ 32 := by
  have hitems := h.items
  unfold Element.count
  split at hitems <;> rename_i hi <;> simp only [hi] <;> omega

namespace Module.Instantiates

variable {raw : Module} {inst : Instance}

/-- An instance has one memory per memory of its module. -/
theorem memories_length (h : raw.Instantiates inst) : inst.memories.length = raw.memories.size := by
  obtain ⟨-, mid, helem, hdata⟩ := h
  have hmid := Folds.keep Instance.memories (fun _ _ _ hs => ElemWrite.memories hs) helem
  have hlen := Folds.keep (fun s : Instance => s.memories.length)
    (fun _ _ _ hs => DataWrite.memories_length hs) hdata
  rw [hlen, hmid]
  simp [Module.fresh]

/-- An instance has one table per table of its module. -/
theorem tables_length (h : raw.Instantiates inst) : inst.tables.length = raw.tables.size := by
  obtain ⟨-, mid, helem, hdata⟩ := h
  have hmid := Folds.keep Instance.tables (fun _ _ _ hs => DataWrite.tables hs) hdata
  have hlen := Folds.keep (fun s : Instance => s.tables.length)
    (fun _ _ _ hs => ElemWrite.tables_length hs) helem
  rw [hmid, hlen]
  simp [Module.fresh]

/-- Every active element segment had an offset, evaluated over the instance's globals. -/
theorem elem_offset (h : raw.Instantiates inst) {e : Element} (he : e ∈ raw.elements.toList)
    (hact : e.isActive = true) : ∃ off o, e.offset = some off ∧ ConstExpr.Offset (lookupIn inst.globals) off o := by
  obtain ⟨-, mid, helem, -⟩ := h
  obtain ⟨off, o, -, -, hoff, ho, -, -⟩ := Folds.elem_active helem e he hact
  exact ⟨off, o, hoff, ho⟩

/-- Memory `j` of an instance: its initial zeros with the active data segments of `j` laid over
them in order, each at the offset `off` gives it. -/
theorem memory (h : raw.Instantiates inst) {off : DataSegment → Nat}
    (hoff : ∀ d ∈ raw.data.toList, d.isActive = true → ∀ e o, d.offset = some e →
      ConstExpr.Offset (lookupIn inst.globals) e o → o = off d)
    {j : Nat} {l : Limits} (hl : raw.memories[j]? = some l) :
    inst.memories[j]? = some ((List.range (l.min.toNat * pageSize)).map (overlay 0
      ((raw.data.toList.filter fun d => d.isActive && d.memIdx.toNat == j).map
        fun d => ⟨off d, d.init.data.toList⟩))) := by
  obtain ⟨-, mid, helem, hdata⟩ := h
  have hglobals : mid.globals = inst.globals :=
    (Folds.keep Instance.globals (fun _ _ _ hs => ElemWrite.globals hs) helem :)
  have hmem : mid.memories = (raw.fresh inst.globals).memories :=
    Folds.keep Instance.memories (fun _ _ _ hs => ElemWrite.memories hs) helem
  -- before the data segments, memory `j` is its initial zeros
  have hstart : mid.memories[j]? = some ((List.range (l.min.toNat * pageSize)).map (overlay 0 [])) := by
    simp [hmem, Module.fresh, hl]
  simpa using Folds.memory_overlay hdata
    (fun d hd hact _ e o he ho => hoff d hd hact e o he (hglobals ▸ ho)) hstart

/-- Table `t` of an instance, the invalid id standing for null: its initial nulls with the
references of its active element segments laid over them in order, each as `pl` places it. -/
theorem table (h : raw.Instantiates inst) {pl : Element → Option (Placed UInt32)} {t : Nat}
    {tt : TableType} (ht : raw.tables[t]? = some tt)
    (hpl : ∀ e ∈ raw.elements.toList, e.isActive = true → e.tableIdx.toNat = t → ∀ off o rs,
      e.offset = some off → ConstExpr.Offset (lookupIn inst.globals) off o →
      e.Refs (lookupIn inst.globals) tt.elemType rs → pl e = some ⟨o, rs.map (·.getD invalidFunc)⟩) :
    inst.tables[t]?.map (·.map (·.getD invalidFunc)) = some ((List.range tt.limits.min.toNat).map
      (overlay invalidFunc
        ((raw.elements.toList.filter fun e => e.isActive && e.tableIdx.toNat == t).filterMap pl))) := by
  obtain ⟨-, mid, helem, hdata⟩ := h
  have htables : inst.tables = mid.tables :=
    Folds.keep Instance.tables (fun _ _ _ hs => DataWrite.tables hs) hdata
  -- before the element segments, table `t` is its initial nulls
  have hstart : (raw.fresh inst.globals).tables[t]?.map (·.map (·.getD invalidFunc)) =
      some ((List.range tt.limits.min.toNat).map (overlay invalidFunc [])) := by
    simp [Module.fresh, ht]
  have hpl' : ∀ e ∈ raw.elements.toList, e.isActive = true → e.tableIdx.toNat = t →
      ∀ off o tt' rs, e.offset = some off → ConstExpr.Offset (lookupIn inst.globals) off o →
      raw.tables[t]? = some tt' → e.Refs (lookupIn inst.globals) tt'.elemType rs →
      pl e = some ⟨o, rs.map (·.getD invalidFunc)⟩ := by
    intro e he hact hidx off o tt' rs hoff ho htt' hrs
    rw [ht] at htt'
    cases htt'
    exact hpl e he hact hidx off o rs hoff ho hrs
  rw [htables]
  simpa using Folds.table_overlay (·.getD invalidFunc) helem hpl' hstart

end Module.Instantiates

end Wasm

/-! ## The image and the instance -/

namespace Image

open View

/-- A build that succeeds has one image per memory of the view, each memory fitting and its image
holding the memory's segments laid over zeros. -/
theorem build_memory_images {v : View} {c : RoleChoice} {im : Image} (h : (build v c).outcome = .ok im)
    (hdata : ∀ md ∈ v.memories, ∀ seg ∈ md.segments, seg.data.size < 2 ^ 63) :
    im.memories.size = v.memories.size ∧ ∀ i (md : MemoryData), v.memories[i]? = some md →
      ∃ m : MemImage, im.memories[i]? = some m ∧ md.Fits ∧ m.Overlays i md := by
  obtain ⟨ms, hms, hims, -, -⟩ := build_ok h
  rw [hims]
  obtain ⟨hsize, hall⟩ := (memoryStep_foldlM v v.memories.size le_rfl ms).mp hms
  refine ⟨hsize, fun i md hmd => ?_⟩
  obtain ⟨hi', rfl⟩ := Array.getElem?_eq_some_iff.mp hmd
  have hi : i < ms.size := hsize ▸ hi'
  rcases buildMemory_cases i v.memories[i] (hdata _ (Array.getElem_mem hi')) with
    ⟨hfits, m, hm, hover⟩ | ⟨-, e, he, -⟩
  · rw [hall i hi' hi] at hm
    cases hm
    exact ⟨ms[i], Array.getElem?_eq_getElem hi, hfits, hover⟩
  · rw [hall i hi' hi] at he
    cases he

/-- An image holds the state of an instance: the bytes of each memory; the value of each global
that holds a number, i32 and f32 cut to 32 bits, and of no other global; and a prefix of each
table's slots, the invalid id standing for null. -/
structure Captures (im : Image) (inst : Instance) : Prop where
  memories_size : im.memories.size = inst.memories.length
  memories : ∀ (j : Nat) (m : MemImage), im.memories[j]? = some m → inst.memories[j]? = some m.bytes.data.toList
  globals : ∀ j, im.globals.get? j = inst.globals[j.toNat]?.bind fun c => Value.ofBits? c.type c.bits
  tables_size : im.tables.size = inst.tables.length
  tables : ∀ (t : Nat) (slots : Array UInt32), im.tables[t]? = some slots →
    ∃ refs : List (Option UInt32), inst.tables[t]? = some refs ∧ slots.toList <+: refs.map (·.getD invalidFunc)

/-- The first `r` entries of a table of `n` entries are a prefix of it. -/
theorem map_range_prefix {α : Type} (f : Nat → α) {r n : Nat} (h : r ≤ n) :
    (List.range r).map f <+: (List.range n).map f := by
  rw [← Nat.min_eq_left h, ← List.take_range]
  exact (List.take_prefix _ _).map f

section Instance

variable {raw : Module} {P Q v : View} {inst : Instance}

/-- The memory images of a module resolved and built are the memories of its instance. -/
theorem memories_captured (hP : prelude raw = .ok P) (himp : raw.ImportsOnlyFuncs)
    (hQ : foldIndexed P raw.data addData = .ok Q) (hvQ : v.memories = Q.memories)
    (hdata : ∀ d ∈ raw.data, d.init.size < 2 ^ 32) {c : RoleChoice} {im : Image}
    (hb : (build v c).outcome = .ok im) (hinst : raw.Instantiates inst)
    (hagree : knownGlobal P.globals = numericIn inst.globals) :
    im.memories.size = inst.memories.length ∧
      ∀ (j : Nat) (m : MemImage), im.memories[j]? = some m → inst.memories[j]? = some m.bytes.data.toList := by
  obtain ⟨hQsize, hQj⟩ := stage_memory hP himp hQ
  have hsmall := stage_segments_small hP himp hQ hdata
  rw [← hvQ] at hQsize hsmall
  obtain ⟨hsize, himages⟩ := build_memory_images hb hsmall
  refine ⟨by rw [hsize, hQsize, hinst.memories_length], fun j m hm => ?_⟩
  have hj : j < raw.memories.size := by
    rw [← hQsize, ← hsize]
    exact (Array.getElem?_eq_some_iff.mp hm).1
  have hl := Array.getElem?_eq_getElem hj
  obtain ⟨m', hm', -, -, hbytes⟩ := himages j _ (by rw [hvQ]; exact hQj j _ hl)
  rw [hm, Option.some.injEq] at hm'
  subst hm'
  -- each data segment is placed at the offset instantiation computes for it
  have hoff : ∀ d ∈ raw.data.toList, d.isActive = true → ∀ e o, d.offset = some e →
      ConstExpr.Offset (lookupIn inst.globals) e o → o = (dataOffset P d).toNat := by
    intro d _ _ e o he ho
    obtain ⟨off, hoff, rfl⟩ := offset_of_spec hagree ho []
    rw [dataOffset_eq (d := d) (by rw [he]; exact hoff)]
  rw [hinst.memory hoff hl, hbytes, placedSegments_placed]
  rfl

/-- The slots that resolution writes into a module's tables are a prefix of its instance's
tables. -/
theorem tables_captured (hP : prelude raw = .ok P) (himp : raw.ImportsOnlyFuncs) {ts : Array TableData}
    (hts : raw.elements.toList.zipIdx.foldlM (fun ts (x, i) => elementTables P.globals ts i x)
      P.tables = .ok ts)
    (hfill : Filled P raw.elements.toList.zipIdx ts) (hcount : ∀ e ∈ raw.elements, e.count < 2 ^ 32)
    (hinst : raw.Instantiates inst) (hagree : knownGlobal P.globals = numericIn inst.globals) :
    ts.size = inst.tables.length ∧ ∀ (t : Nat) (tbl : TableData), ts[t]? = some tbl →
      ∃ refs : List (Option UInt32), inst.tables[t]? = some refs ∧ tbl.funcElements.toList <+: refs.map (·.getD invalidFunc) := by
  obtain ⟨hpt, -, -, -⟩ := prelude_spaces hP
  rw [himp.importedTables_eq, Array.map_empty, Array.empty_append] at hpt
  have hsize : ts.size = P.tables.size := by simpa using congrArg Array.size hfill.frame
  refine ⟨by rw [hsize, hpt, Array.size_map, hinst.tables_length], fun t tbl htbl => ?_⟩
  have ht : t < raw.tables.size := by
    have := (Array.getElem?_eq_some_iff.mp htbl).1
    rwa [hsize, hpt, Array.size_map] at this
  have hPt : P.tables[t]? = some (TableData.ofType raw.tables[t] false) := by simp [hpt, ht]
  obtain ⟨refs, hrefs⟩ : ∃ refs, inst.tables[t]? = some refs :=
    ⟨_, List.getElem?_eq_getElem (by rw [hinst.tables_length]; exact ht)⟩
  refine ⟨refs, hrefs, ?_⟩
  -- resolution keeps each table's type and size
  have hclear : tbl.clear = (TableData.ofType raw.tables[t] false).clear := by
    have := congrArg (·[t]?) hfill.frame
    simpa [htbl, hPt] using this
  by_cases hfun : raw.tables[t].elemType = .funcref
  · -- no active segment of a funcref table wraps around: offsets and counts are 32-bit
    have hnw : ¬ P.WrapsAround raw.elements.toList.zipIdx := by
      rintro ⟨x, hx, tb, p, ⟨hact, -, -⟩, hp, hwrap⟩
      have hx1 : x.1 ∈ raw.elements.toList := List.mem_of_getElem? (List.mem_zipIdx_iff_getElem?.mp hx)
      obtain ⟨off, o, hoff, ho⟩ := hinst.elem_offset hx1 hact
      obtain ⟨off', funcs, hoff', hfs, rfl⟩ := elementPlacement_eq_some hp
      obtain ⟨off'', hoff'', rfl⟩ := offset_of_spec hagree ho ["elem", toString x.2]
      simp only [hoff, Option.getD_some, hoff'', Except.ok.injEq] at hoff'
      subst hoff'
      have hlt := ho.lt
      have hlen := elementFuncs_length hfs
      have hcnt := hcount x.1 (Array.mem_toList_iff.mp hx1)
      simp only [Placed.stop] at hwrap
      omega
    -- each segment places what instantiation writes
    have hpl : ∀ e ∈ raw.elements.toList, e.isActive = true → e.tableIdx.toNat = t → ∀ off o rs,
        e.offset = some off → ConstExpr.Offset (lookupIn inst.globals) off o →
        e.Refs (lookupIn inst.globals) raw.tables[t].elemType rs →
        P.elementPlacement 0 e = some ⟨o, rs.map (·.getD invalidFunc)⟩ := by
      intro e he hact hidx off o rs hoff ho hrs
      obtain ⟨i, hi⟩ := List.mem_iff_getElem?.mp he
      have hx : (e, i) ∈ raw.elements.toList.zipIdx := List.mem_zipIdx_iff_getElem?.mpr hi
      have hseg : FuncrefSegment P.tables e (TableData.ofType raw.tables[t] false) :=
        ⟨hact, hidx ▸ hPt, hfun⟩
      obtain ⟨p, hp⟩ := Option.isSome_iff_exists.mp (hfill.evaluated (e, i) hx _ hseg)
      obtain ⟨off', funcs, hoff', hfs, rfl⟩ := elementPlacement_eq_some hp
      obtain ⟨off'', hoff'', rfl⟩ := offset_of_spec hagree ho ["elem", toString i]
      simp only [hoff, Option.getD_some, hoff'', Except.ok.injEq] at hoff'
      subst hoff'
      rw [← elementPlacement_zero P i e, hp, elementFuncs_refs hfs hrs]
    have hspec := hinst.table (Array.getElem?_eq_getElem ht) hpl
    rw [hrefs, Option.map_some, Option.some.injEq] at hspec
    obtain ⟨hts', rfl⟩ := Array.getElem?_eq_some_iff.mp htbl
    have hty : ts[t].elemType = .funcref := by
      simpa [TableData.clear, TableData.ofType, hfun] using congrArg TableData.elemType hclear
    obtain ⟨hslots, hreach⟩ := hfill.holds hnw t hts' hty
    have hinit : ts[t].initial = raw.tables[t].limits.min := by
      simpa [TableData.clear, TableData.ofType] using congrArg TableData.initial hclear
    rw [tablePlacements_zipIdx] at hslots hreach
    rw [hinit] at hreach
    rw [hslots, hspec]
    exact map_range_prefix _ hreach
  · -- any other table is never written
    have hkeep := elements_other P _ _ _ hts t fun tb htb => by
      rw [hPt] at htb
      cases htb
      exact hfun
    rw [htbl, hPt, Option.some.injEq] at hkeep
    subst hkeep
    exact List.nil_prefix

/-- The globals of the image of a module resolved and built are the numbers among its instance's
globals. -/
theorem globals_captured (hP : prelude raw = .ok P) (himp : raw.ImportsOnlyFuncs)
    (hvg : v.globals = P.globals) (hcount : raw.globals.size < 2 ^ 32)
    (hvals : raw.GlobalValues inst.globals) (j : UInt32) :
    (knownGlobals v).get? j = inst.globals[j.toNat]?.bind fun c => Value.ofBits? c.type c.bits := by
  obtain ⟨hsize, hagree⟩ := prelude_agrees hP himp hvals
  have hlen := hvals.length
  rw [knownGlobals_get? v (by rw [hvg, hsize]; omega), hvg]
  by_cases hj : j.toNat < inst.globals.length
  · obtain ⟨d, hd, hda⟩ := hagree j.toNat hj
    rw [hd, List.getElem?_eq_getElem hj]
    exact hda.known
  · rw [Array.getElem?_eq_none (by omega), List.getElem?_eq_none (by omega)]
    rfl

end Instance

/-- A module that decodes and imports only functions, resolved and built: its image holds the
state of every instance of it. -/
theorem build_captures {bytes : ByteArray} {raw : Module} (hraw : Module.decode bytes = .ok raw)
    (himp : raw.ImportsOnlyFuncs) {v : View} (hv : View.parse bytes = .ok v) {c : RoleChoice}
    {im : Image} (hb : (build v c).outcome = .ok im) {inst : Instance} (hinst : raw.Instantiates inst) :
    im.Captures inst := by
  rw [View.parse, hraw] at hv
  -- what decoding guarantees: 32-bit counts and contents
  have hwf := Module.wf_of_decode hraw
  have hdata : ∀ d ∈ raw.data, d.init.size < 2 ^ 32 := fun d hd =>
    (show d.WF from (hwf.vectors .data).entries d hd).init
  have hcount : ∀ e ∈ raw.elements, e.count < 2 ^ 32 := fun e he =>
    (show e.WF from (hwf.vectors .elements).entries e he).count_lt
  have hgcount : raw.globals.size < 2 ^ 32 := (hwf.vectors .globals).count
  obtain ⟨P, Q, hP, hQ, hQP, hvQ, hts, hfill⟩ := ofModule_stages hv
  have hvQg : v.globals = Q.globals := (congrArg View.globals hvQ :)
  have hQPg : Q.globals = P.globals := (congrArg View.globals hQP :)
  have hagree := prelude_knownGlobal hP himp hinst.1
  obtain ⟨-, -, -, hglobals, htables⟩ := build_ok hb
  obtain ⟨hmsize, hmem⟩ :=
    memories_captured hP himp hQ (congrArg View.memories hvQ :) hdata hb hinst hagree
  obtain ⟨htsize, htab⟩ := tables_captured hP himp hts hfill hcount hinst hagree
  refine ⟨hmsize, hmem, fun j => ?_, by rw [htables, Array.size_map, htsize], fun t slots hslots => ?_⟩
  · rw [hglobals]
    exact globals_captured hP himp (hvQg.trans hQPg) hgcount hinst.1 j
  · rw [htables, Array.getElem?_map, Option.map_eq_some_iff] at hslots
    obtain ⟨tbl, htbl, rfl⟩ := hslots
    exact htab t tbl htbl

/-- A data segment past its memory makes building fail, and an active element segment past a
table that holds functions makes resolution fail. -/
theorem build_fails_past {bytes : ByteArray} {raw : Module} (hraw : Module.decode bytes = .ok raw)
    (himp : raw.ImportsOnlyFuncs) {gs : List ConstValue} (hvals : raw.GlobalValues gs)
    (hpast : (∃ d ∈ raw.data, d.OutOfBounds raw gs) ∨
      ∃ e ∈ raw.elements, e.OutOfBounds raw gs ∧
        raw.tables[e.tableIdx.toNat]?.map (·.elemType) = some .funcref)
    {v : View} (hv : View.parse bytes = .ok v) (c : RoleChoice) :
    ∃ err, (build v c).outcome = .error err := by
  rw [View.parse, hraw] at hv
  have hwf := Module.wf_of_decode hraw
  obtain ⟨P, Q, hP, hQ, -, hvQ, hts, -⟩ := ofModule_stages hv
  have hagree := prelude_knownGlobal hP himp hvals
  rcases hpast with ⟨d, hd, hact, e, o, l, he, ho, hl, hpast⟩ |
    ⟨e, he, ⟨hact, off, o, tt, hoff, ho, htt, hpast⟩, hfun⟩
  · -- the segment lies in its memory at its offset, and that memory does not fit
    cases hbuild : (build v c).outcome with
    | error err => exact ⟨err, rfl⟩
    | ok im =>
      have hdata : ∀ d ∈ raw.data, d.init.size < 2 ^ 32 := fun d hd =>
        (show d.WF from (hwf.vectors .data).entries d hd).init
      have hvm : v.memories = Q.memories := (congrArg View.memories hvQ :)
      obtain ⟨-, himages⟩ := build_memory_images hbuild (hvm ▸ stage_segments_small hP himp hQ hdata)
      obtain ⟨m, -, hfits, -⟩ := himages _ _ (by rw [hvm]; exact (stage_memory hP himp hQ).2 _ l hl)
      have hseg : (⟨dataOffset P d, d.init⟩ : Segment) ∈
          placedSegments raw.data.toList (dataOffset P) d.memIdx.toNat := by
        simp only [placedSegments, List.mem_toArray, List.mem_map, List.mem_filter]
        exact ⟨d, ⟨Array.mem_toList_iff.mpr hd, by simp [hact]⟩, rfl⟩
      have hfit := hfits.2 _ hseg
      obtain ⟨off, hoff, rfl⟩ := offset_of_spec hagree ho []
      rw [dataOffset_eq (d := d) (by rw [he]; exact hoff)] at hfit
      simp only [Segment.FitsIn, MemoryData.initialBytes, MemoryData.ofLimits] at hfit
      omega
  · -- the segment's offset resolves, and the element stage fails on it
    exfalso
    obtain ⟨i, hi⟩ := List.mem_iff_getElem?.mp (Array.mem_toList_iff.mpr he)
    have hx : (e, i) ∈ raw.elements.toList.zipIdx := List.mem_zipIdx_iff_getElem?.mpr hi
    obtain ⟨hpt, -, -, -⟩ := prelude_spaces hP
    rw [himp.importedTables_eq, Array.map_empty, Array.empty_append] at hpt
    have hPt : P.tables[e.tableIdx.toNat]? = some (TableData.ofType tt false) := by simp [hpt, htt]
    rw [htt, Option.map_some, Option.some.injEq] at hfun
    obtain ⟨off', hoff', rfl⟩ := offset_of_spec hagree ho ["elem", toString i]
    have hcnt := (show e.WF from (hwf.vectors .elements).entries e he).count_lt
    have hlt := ho.lt
    obtain ⟨err, herr⟩ := elements_fail_past _ (Filled.init (prelude_unfilled hP)) (e, i) hx
      (TableData.ofType tt false) off' ⟨hact, hPt, hfun⟩ (by dsimp only; rw [hoff]; exact hoff')
      (by dsimp only; omega) (by dsimp only; exact hpast)
    rw [hts] at herr
    cases herr

/-- The image is the initial state of the module. For a module that decodes and imports only
functions, every image built from its resolved view holds the state of every instance of it
(`Captures`): each memory byte for byte, each global that holds a number, and each table as far
as its slots reach. Conversely a data segment past its memory, or an active element segment past
a table that holds functions, leaves no image. -/
theorem build_captures_instance {bytes : ByteArray} {raw : Module}
    (hraw : Module.decode bytes = .ok raw) (himp : raw.ImportsOnlyFuncs) :
    (∀ (v : View) (c : RoleChoice) (im : Image) (inst : Instance), View.parse bytes = .ok v →
      (build v c).outcome = .ok im → raw.Instantiates inst → im.Captures inst) ∧
    ∀ gs : List ConstValue, raw.GlobalValues gs →
      ((∃ d ∈ raw.data, d.OutOfBounds raw gs) ∨
        ∃ e ∈ raw.elements, e.OutOfBounds raw gs ∧
          raw.tables[e.tableIdx.toNat]?.map (·.elemType) = some .funcref) →
      ∀ v : View, View.parse bytes = .ok v → ∀ c : RoleChoice, ∃ err, (build v c).outcome = .error err :=
  ⟨fun _ _ _ _ hv hb hinst => build_captures hraw himp hv hb hinst,
    fun _ hvals hpast _ hv c => build_fails_past hraw himp hvals hpast hv c⟩

/-- A funcref table of two slots, an immutable i32 global set to 1, and an active segment writing
function 0 into the table at the offset the global holds. -/
def globalOffsetBytes : ByteArray :=
  ⟨#[0x00, 0x61, 0x73, 0x6d, 0x01, 0x00, 0x00, 0x00,
    0x01, 0x04, 0x01, 0x60, 0x00, 0x00,
    0x03, 0x02, 0x01, 0x00,
    0x04, 0x04, 0x01, 0x70, 0x00, 0x02,
    0x06, 0x06, 0x01, 0x7f, 0x00, 0x41, 0x01, 0x0b,
    0x09, 0x07, 0x01, 0x00, 0x23, 0x00, 0x0b, 0x01, 0x00,
    0x0a, 0x04, 0x01, 0x02, 0x00, 0x0b]⟩

/-- The module those bytes decode to. -/
def globalOffsetModule : Module where
  types := #[⟨[], []⟩]
  funcs := #[0]
  tables := #[⟨.funcref, ⟨2, none, false, false⟩⟩]
  globals := #[⟨⟨.i32, false⟩, ⟨#[0x41, 0x01, 0x0b]⟩⟩]
  elements := #[⟨0, 0, some ⟨#[0x23, 0x00, 0x0b]⟩, 0, .funcref, .funcs [0]⟩]
  code := #[⟨[], ⟨#[0x0b]⟩⟩]

/-- Its view: the global known to be 1, and the table holding the invalid id, then function 0. -/
def globalOffsetView : View where
  raw := globalOffsetModule
  signatures := #[⟨[], []⟩]
  funcs := #[⟨0, false⟩]
  globals := #[⟨.i32, false, false, some 1⟩]
  tables := #[⟨2, .funcref, false, #[invalidFunc, 0]⟩]

/-- Its image: no memory, global 0 holding 1, and the table's two slots. -/
def globalOffsetImage : Image where
  memories := #[]
  globals := [(0, ⟨.i32, 1⟩)]
  tables := #[#[invalidFunc, 0]]
  roles := ⟨some 0, none, some 0⟩

/-- Its instance: the global 1, and the table null, then function 0. -/
def globalOffsetInstance : Instance where
  globals := [⟨.i32, 1, false⟩]
  memories := []
  tables := [[none, some 0]]

/-- A memory of no pages and an active segment writing one byte into it at offset 0. -/
def dataPastMemoryBytes : ByteArray :=
  ⟨#[0x00, 0x61, 0x73, 0x6d, 0x01, 0x00, 0x00, 0x00,
    0x05, 0x03, 0x01, 0x00, 0x00,
    0x0b, 0x07, 0x01, 0x00, 0x41, 0x00, 0x0b, 0x01, 0x2a]⟩

/-- The module those bytes decode to. -/
def dataPastMemoryModule : Module where
  memories := #[⟨0, none, false, false⟩]
  data := #[⟨0, 0, some ⟨#[0x41, 0x00, 0x0b]⟩, ⟨#[0x2a]⟩⟩]

/-- The global-offset module decodes, resolves and builds, it has an instance, and its image holds
that instance's state. The module writing a byte past its memory of no pages resolves, and its
build fails. -/
theorem build_captures_global_offset_and_fails_data_past :
    Module.decode globalOffsetBytes = .ok globalOffsetModule ∧ globalOffsetModule.ImportsOnlyFuncs ∧
      View.parse globalOffsetBytes = .ok globalOffsetView ∧
      (build globalOffsetView {}).outcome = .ok globalOffsetImage ∧
      globalOffsetModule.Instantiates globalOffsetInstance ∧
      globalOffsetImage.Captures globalOffsetInstance ∧
      Module.decode dataPastMemoryBytes = .ok dataPastMemoryModule ∧
      dataPastMemoryModule.GlobalValues [] ∧
      (∃ d ∈ dataPastMemoryModule.data, d.OutOfBounds dataPastMemoryModule []) ∧
      (∃ v, View.parse dataPastMemoryBytes = .ok v) ∧
      ∀ v, View.parse dataPastMemoryBytes = .ok v → ∀ c : RoleChoice,
        ∃ err, (build v c).outcome = .error err := by
  have hdec : Module.decode globalOffsetBytes = .ok globalOffsetModule := by cbv
  have himp : globalOffsetModule.ImportsOnlyFuncs := fun imp h => by
    simp [globalOffsetModule] at h
  have hv : View.parse globalOffsetBytes = .ok globalOffsetView := by cbv
  have hb : (build globalOffsetView {}).outcome = .ok globalOffsetImage := by cbv
  -- the global's initializer and the segment's offset both evaluate to the i32 1
  have hinit : ConstExpr.Evaluates (lookupIn []) ⟨#[0x41, 0x01, 0x0b]⟩ ⟨.i32, 1, false⟩ :=
    ⟨[0x41, 1], [.i32Const 1], [], rfl, .cons (.i32Const (Leb128.readS32_small 1 (by decide) (by decide))) .nil,
      by decide⟩
  have hoff : ConstExpr.Offset (lookupIn globalOffsetInstance.globals) ⟨#[0x23, 0x00, 0x0b]⟩ 1 :=
    ⟨⟨.i32, 1, false⟩, ⟨[0x23, 0], [.globalGet 0], [], rfl, .cons (.globalGet Leb128.readU32_zero) .nil,
      by decide⟩, rfl, by decide⟩
  have hvals : globalOffsetModule.GlobalValues globalOffsetInstance.globals := by
    refine ⟨rfl, fun i h _ => ?_⟩
    have hi : i = 0 := by simp [globalOffsetInstance] at h; omega
    subst hi
    exact ⟨hinit, rfl⟩
  have hwrite : ElemWrite globalOffsetModule globalOffsetModule.elements[0]
      (globalOffsetModule.fresh globalOffsetInstance.globals) globalOffsetInstance :=
    @ElemWrite.write globalOffsetModule globalOffsetModule.elements[0]
      (globalOffsetModule.fresh globalOffsetInstance.globals) ⟨#[0x23, 0x00, 0x0b]⟩ 1
      globalOffsetModule.tables[0] [some 0] [none, none] (by decide) rfl hoff rfl ⟨rfl, rfl⟩ rfl
      (by decide)
  have hinst : globalOffsetModule.Instantiates globalOffsetInstance :=
    ⟨hvals, _, .cons hwrite (.nil _), .nil _⟩
  have hdec' : Module.decode dataPastMemoryBytes = .ok dataPastMemoryModule := by cbv
  have himp' : dataPastMemoryModule.ImportsOnlyFuncs := fun imp h => by
    simp [dataPastMemoryModule] at h
  have hvals' : dataPastMemoryModule.GlobalValues [] := ⟨rfl, fun i h => absurd h (Nat.not_lt_zero i)⟩
  -- the offset is the i32 0, and one byte does not fit a memory of no pages
  have hzero : ConstExpr.Offset (lookupIn []) ⟨#[0x41, 0x00, 0x0b]⟩ 0 :=
    ⟨⟨.i32, 0, false⟩, ⟨[0x41, 0], [.i32Const 0], [], rfl,
      .cons (.i32Const (Leb128.readS32_small 0 (by decide) (by decide))) .nil, by decide⟩, rfl, by decide⟩
  have hpast : ∃ d ∈ dataPastMemoryModule.data, d.OutOfBounds dataPastMemoryModule [] :=
    ⟨dataPastMemoryModule.data[0], by simp [dataPastMemoryModule], by decide,
      _, 0, dataPastMemoryModule.memories[0], rfl, hzero, rfl, by decide⟩
  exact ⟨hdec, himp, hv, hb, hinst, (build_captures_instance hdec himp).1 _ _ _ _ hv hb hinst,
    hdec', hvals', hpast, ⟨_, by cbv⟩, (build_captures_instance hdec' himp').2 [] hvals' (.inl hpast)⟩

/-- An externref table of no slots, and an active segment writing one null reference into it at
offset 0. -/
def externrefPastTableBytes : ByteArray :=
  ⟨#[0x00, 0x61, 0x73, 0x6d, 0x01, 0x00, 0x00, 0x00,
    0x04, 0x04, 0x01, 0x6f, 0x00, 0x00,
    0x09, 0x0b, 0x01, 0x06, 0x00, 0x41, 0x00, 0x0b, 0x6f, 0x01, 0xd0, 0x6f, 0x0b]⟩

/-- The module those bytes decode to. -/
def externrefPastTableModule : Module where
  tables := #[⟨.externref, ⟨0, none, false, false⟩⟩]
  elements := #[⟨6, 0, some ⟨#[0x41, 0x00, 0x0b]⟩, 0, .externref, .exprs [⟨#[0xd0, 0x6f, 0x0b]⟩]⟩]

/-- Its view: the table, with no slots written. -/
def externrefPastTableView : View where
  raw := externrefPastTableModule
  signatures := #[]
  tables := #[⟨0, .externref, false, #[]⟩]

/-- Instantiation traps on the segment, which lies past its table, yet resolution and building
succeed: resolution never checks a segment of a table that does not hold functions. -/
theorem externref_segment_past_table_builds :
    Module.decode externrefPastTableBytes = .ok externrefPastTableModule ∧
      externrefPastTableModule.ImportsOnlyFuncs ∧ externrefPastTableModule.TrapsOutOfBounds ∧
      View.parse externrefPastTableBytes = .ok externrefPastTableView ∧
      (build externrefPastTableView {}).outcome = .ok ⟨#[], [], #[#[]], ⟨none, none, some 0⟩⟩ := by
  have hdec : Module.decode externrefPastTableBytes = .ok externrefPastTableModule := by cbv
  have himp : externrefPastTableModule.ImportsOnlyFuncs := fun imp h => by
    simp [externrefPastTableModule] at h
  -- the offset is the i32 0, and one item does not fit a table of no slots
  have hoff : ConstExpr.Offset (lookupIn []) ⟨#[0x41, 0x00, 0x0b]⟩ 0 :=
    ⟨⟨.i32, 0, false⟩, ⟨[0x41, 0], [.i32Const 0], [], rfl,
      .cons (.i32Const (Leb128.readS32_small 0 (by decide) (by decide))) .nil, by decide⟩, rfl, by decide⟩
  have htraps : externrefPastTableModule.TrapsOutOfBounds :=
    ⟨[], ⟨rfl, fun i h => absurd h (Nat.not_lt_zero i)⟩,
      .inl ⟨externrefPastTableModule.elements[0], by simp [externrefPastTableModule], by decide,
        _, 0, externrefPastTableModule.tables[0], rfl, hoff, rfl, by decide⟩⟩
  exact ⟨hdec, himp, htraps, by cbv, by cbv⟩

end Image

end WasmImage
