import WasmImage.Proofs.IndexSpaces
import WasmImage.Proofs.Regroup

/-!
# Resolving the globals

Resolution lists the imported globals first, in import order and with no known value, then one
entry per defined global. The defined globals are resolved in section order, each over the
entries before it: `global.get` in an initializer reads only a global below the one it
initializes, and only when that global's value is known, at its declared type (`knownBelow`).
A value is known when the initializer evaluates to a number of the global's declared type
(`GlobalData.Resolves`). An initializer that reads a global with no known value leaves the value
unknown; any other failure, at the first defined global that has one, fails resolution at the
path of that global (`InitializerFails`). The data and element segments are then placed over the
whole list. Main statement: `View.globals_resolved`.
-/

namespace WasmImage.View

open Wasm

/-! ## What a resolved global holds -/

/-- What `global.get` reads in the initializer of global `n`: a global below `n` whose value is
known, at its declared type. -/
def knownBelow (gs : Array GlobalData) (n : Nat) : GlobalLookup :=
  fun j => if j.toNat < n then knownGlobal gs j else none

/-- Entry `d` resolves defined global `g` when `global.get` reads `known`: it has the global's
declared type and mutability, is not imported, and has a value exactly when the initializer
evaluates to a number of the declared type, that number's bits; the initializer fails, if at
all, only on a global that is not known. -/
structure GlobalData.Resolves (d : GlobalData) (g : Global) (known : GlobalLookup) : Prop where
  type : d.type = g.type.valType
  mutable : d.mutable = g.type.mutable
  defined : d.imported = false
  value : ∀ bits, d.value = some bits ↔ ∃ c, ConstValue.eval g.init (some known) = .ok c ∧
    c.type.isNumeric ∧ c.type = g.type.valType ∧ c.bits = bits
  constant : ∀ e, ConstValue.eval g.init (some known) = .error e → e = .notConstant

/-- The globals of `raw` resolved through its first `k` defined globals: the imported globals, in
the order of the imports and with no value, then one entry for each of those defined globals,
each resolving it over the entries before it. -/
structure GlobalsResolved (raw : Module) (k : Nat) (gs : Array GlobalData) : Prop where
  size : gs.size = raw.importedGlobals.size + k
  imported : ∀ j < raw.importedGlobals.size, gs[j]? = raw.importedGlobals[j]?.map
    fun t => { type := t.valType, mutable := t.mutable, imported := true }
  defined : ∀ i < k, ∃ g d, raw.globals[i]? = some g ∧
    gs[raw.importedGlobals.size + i]? = some d ∧
    d.Resolves g (knownBelow gs (raw.importedGlobals.size + i))

/-- Resolving the globals of `raw` fails with `f`: defined global `i` is the first whose
initializer, over the globals resolved before it, fails other than on a global that is not
known, and `f` wraps that failure at the global's index. -/
def InitializerFails (raw : Module) (f : Fault) : Prop :=
  ∃ i g gs e, raw.globals[i]? = some g ∧ GlobalsResolved raw i gs ∧
    ConstValue.eval g.init (some (knownGlobal gs)) = .error e ∧ e ≠ .notConstant ∧
    f = (Fault.wrap .resolve .invalidData e.message s!"initializer of defined global {i}").atPath
      ["global", toString (raw.importedGlobals.size + i)]

/-! ## Reading the globals below an index -/

section Lookup

variable {gs gs' : Array GlobalData} {n : Nat}

/-- Lists that agree below `n` read the same there. -/
theorem knownBelow_congr (h : ∀ j < n, gs[j]? = gs'[j]?) : knownBelow gs n = knownBelow gs' n := by
  funext j
  unfold knownBelow knownGlobal
  split
  · rw [h j.toNat ‹_›]
  · rfl

/-- A global added at the end is not read below it. -/
theorem knownBelow_push (d : GlobalData) (hn : n ≤ gs.size) :
    knownBelow (gs.push d) n = knownBelow gs n :=
  knownBelow_congr fun j hj => by rw [Array.getElem?_push, if_neg (by omega)]

/-- Below the end of the list is all of it. -/
theorem knownBelow_size (gs : Array GlobalData) : knownBelow gs gs.size = knownGlobal gs := by
  funext j
  unfold knownBelow knownGlobal
  split
  · rfl
  · rw [Array.getElem?_eq_none (by omega)]
    rfl

end Lookup

/-! ## One defined global -/

/-- An initializer determines its entry. -/
theorem GlobalData.Resolves.unique {d d' : GlobalData} {g : Global} {known : GlobalLookup}
    (h : d.Resolves g known) (h' : d'.Resolves g known) : d = d' := by
  have hvalue : d.value = d'.value :=
    Option.ext fun bits => (h.value bits).trans (h'.value bits).symm
  cases d
  cases d'
  simp only [GlobalData.mk.injEq] at hvalue ⊢
  exact ⟨h.type.trans h'.type.symm, h.mutable.trans h'.mutable.symm,
    h.defined.trans h'.defined.symm, hvalue⟩

/-- Defined global `i` is added resolved over the globals of the view, or its initializer fails
other than on a global that is not known, and so does the step, at the global's index. -/
theorem addGlobal_cases (v : View) (i : Nat) (g : Global) :
    (∃ d, d.Resolves g (knownGlobal v.globals) ∧
      addGlobal v i g = .ok { v with globals := v.globals.push d }) ∨
    ∃ e, ConstValue.eval g.init (some (knownGlobal v.globals)) = .error e ∧ e ≠ .notConstant ∧
      addGlobal v i g = .error ((Fault.wrap .resolve .invalidData e.message
        s!"initializer of defined global {i}").atPath ["global", toString v.globals.size]) := by
  unfold addGlobal
  cases hev : ConstValue.eval g.init (some (knownGlobal v.globals)) with
  | ok c =>
    -- the value is known exactly when the initializer gives a number of the declared type
    refine .inl ⟨⟨g.type.valType, g.type.mutable, false,
      if c.type.isNumeric && c.type == g.type.valType then some c.bits else none⟩,
      ⟨rfl, rfl, rfl, fun bits => ?_, fun e he => by rw [hev] at he; cases he⟩, rfl⟩
    simp [hev, and_assoc]
  | error e =>
    by_cases hnc : e = .notConstant
    · -- a global that is not known leaves the value unknown
      subst hnc
      refine .inl ⟨⟨g.type.valType, g.type.mutable, false, none⟩,
        ⟨rfl, rfl, rfl, fun bits => ?_, fun e he => ?_⟩, rfl⟩
      · simp [hev]
      · rw [hev] at he
        exact (Except.error.inj he).symm
    · refine .inr ⟨e, rfl, hnc, ?_⟩
      split
      · rename_i heq
        cases heq
      · rename_i heq
        exact absurd (Except.error.inj heq) hnc
      · rename_i heq
        cases heq
        rfl

/-! ## The list so far -/

namespace GlobalsResolved

variable {raw : Module}

/-- Before any defined global: the imported ones alone. -/
theorem init (raw : Module) : GlobalsResolved raw 0 (raw.importedGlobals.map
    fun t => { type := t.valType, mutable := t.mutable, imported := true }) where
  size := by simp
  imported j _ := by rw [Array.getElem?_map]
  defined i hi := absurd hi (Nat.not_lt_zero i)

/-- The next defined global, resolved over the list so far. -/
theorem push {k : Nat} {gs : Array GlobalData} (h : GlobalsResolved raw k gs) {g : Global}
    {d : GlobalData} (hg : raw.globals[k]? = some g) (hd : d.Resolves g (knownGlobal gs)) :
    GlobalsResolved raw (k + 1) (gs.push d) := by
  have hsize := h.size
  have hkeep : ∀ j < gs.size, (gs.push d)[j]? = gs[j]? := fun j hj => by
    rw [Array.getElem?_push, if_neg (by omega)]
  refine ⟨by rw [Array.size_push, hsize, Nat.add_assoc], fun j hj => ?_, fun i hi => ?_⟩
  · rw [hkeep j (by omega), h.imported j hj]
  rcases Nat.lt_succ_iff_lt_or_eq.mp hi with hi | rfl
  · -- an earlier global keeps its entry, and reads nothing of the new one
    obtain ⟨g', d', hg', hd', hres⟩ := h.defined i hi
    refine ⟨g', d', hg', by rw [hkeep _ (by omega), hd'], ?_⟩
    rw [knownBelow_push d (by omega)]
    exact hres
  · refine ⟨g, d, hg, by rw [← hsize, Array.getElem?_push_size], ?_⟩
    rw [← hsize, knownBelow_push d le_rfl, knownBelow_size]
    exact hd

/-- Two resolutions of one module agree as far as both go. -/
theorem agree {k k' : Nat} {gs gs' : Array GlobalData} (h : GlobalsResolved raw k gs)
    (h' : GlobalsResolved raw k' gs') :
    ∀ j < raw.importedGlobals.size + min k k', gs[j]? = gs'[j]? := by
  intro j
  -- by strong induction: a defined global's entries resolve it over entries that agree
  induction j using Nat.strong_induction_on with
  | _ j ih =>
    intro hj
    by_cases himp : j < raw.importedGlobals.size
    · rw [h.imported j himp, h'.imported j himp]
    obtain ⟨i, rfl⟩ : ∃ i, j = raw.importedGlobals.size + i := ⟨j - raw.importedGlobals.size, by omega⟩
    obtain ⟨g, d, hg, hd, hres⟩ := h.defined i (by omega)
    obtain ⟨g', d', hg', hd', hres'⟩ := h'.defined i (by omega)
    rw [hg] at hg'
    cases hg'
    rw [knownBelow_congr fun j' hj' => ih j' hj' (by omega)] at hres
    rw [hd, hd', hres.unique hres']

/-- What the initializer of defined global `k` reads, in any resolution that goes further. -/
theorem knownGlobal_eq {k k' : Nat} {gs gs' : Array GlobalData} (h : GlobalsResolved raw k gs)
    (h' : GlobalsResolved raw k' gs') (hk : k ≤ k') :
    knownGlobal gs = knownBelow gs' (raw.importedGlobals.size + k) := by
  rw [← knownBelow_size, h.size]
  exact knownBelow_congr fun j hj => h.agree h' j (by omega)

/-- A global resolved in a list has an initializer that fails only on a global that is not
known. -/
theorem initializer_constant {k i : Nat} {gs gs' : Array GlobalData} (h : GlobalsResolved raw k gs)
    (hi : i < k) {g : Global} (hg : raw.globals[i]? = some g) (h' : GlobalsResolved raw i gs')
    (e : ConstFault) (he : ConstValue.eval g.init (some (knownGlobal gs')) = .error e) :
    e = .notConstant := by
  obtain ⟨g', d, hg', -, hres⟩ := h.defined i hi
  rw [hg] at hg'
  cases hg'
  rw [h'.knownGlobal_eq h hi.le] at he
  exact hres.constant e he

/-- A resolution through every defined global leaves no initializer to fail. -/
theorem not_fails {gs : Array GlobalData} (h : GlobalsResolved raw raw.globals.size gs) (f : Fault) :
    ¬ InitializerFails raw f := by
  rintro ⟨i, g, gs', e, hg, h', he, hne, -⟩
  exact hne (h.initializer_constant (Array.getElem?_eq_some_iff.mp hg).1 hg h' e he)

end GlobalsResolved

/-- Resolution fails at one global, with one fault. -/
theorem InitializerFails.unique {raw : Module} {f f' : Fault} (hf : InitializerFails raw f)
    (hf' : InitializerFails raw f') : f = f' := by
  obtain ⟨i, g, gs, e, hg, h, he, hne, rfl⟩ := hf
  obtain ⟨i', g', gs', e', hg', h', he', hne', rfl⟩ := hf'
  -- neither initializer comes before the other, since an earlier one would have resolved
  obtain rfl : i = i' := by
    rcases Nat.lt_trichotomy i i' with hlt | heq | hgt
    · exact absurd (h'.initializer_constant hlt hg h e he) hne
    · exact heq
    · exact absurd (h.initializer_constant hgt hg' h' e' he') hne'
  rw [hg] at hg'
  cases hg'
  rw [h.knownGlobal_eq h' le_rfl, ← h'.size, knownBelow_size, he'] at he
  cases he
  rfl

/-! ## The globals stage -/

/-- The globals stage, from the imported globals, resolves every defined global or fails at the
first initializer that fails; it changes nothing but the globals. -/
theorem globals_outcome (raw : Module) (V : View) (hV : V.globals = raw.importedGlobals.map
    fun t => { type := t.valType, mutable := t.mutable, imported := true }) :
    (∃ w, foldIndexed V raw.globals addGlobal = .ok w ∧ w = { V with globals := w.globals } ∧
      GlobalsResolved raw raw.globals.size w.globals) ∨
    ∃ f, foldIndexed V raw.globals addGlobal = .error f ∧ InitializerFails raw f := by
  unfold foldIndexed
  have hinit : GlobalsResolved raw 0 V.globals := hV ▸ GlobalsResolved.init raw
  -- the invariant: the globals so far are resolved, and nothing else has changed
  refine (foldlM_outcome (fun pre u => u = { V with globals := u.globals } ∧
      GlobalsResolved raw pre.length u.globals) (InitializerFails raw) ?_ ⟨rfl, hinit⟩ rfl).imp
    (fun ⟨w, hw, hframe, hres⟩ => ⟨w, hw, hframe, by simpa using hres⟩) id
  rintro pre ⟨g, i⟩ rest u r hpre ⟨hu, hres⟩ rfl
  -- the global's index is the number of globals before it
  obtain ⟨rfl, -, hg⟩ := zipIdx_eq_append hpre
  rw [Array.getElem?_toList] at hg
  rcases addGlobal_cases u pre.length g with ⟨d, hd, hok⟩ | ⟨e, he, hne, herr⟩
  · refine .inl ⟨_, hok, ?_, ?_⟩
    · conv_lhs => rw [hu]
    · rw [List.length_append, List.length_singleton]
      exact hres.push hg hd
  · exact .inr ⟨_, herr, pre.length, g, u.globals, e, hg, hres, he, hne, by rw [hres.size]⟩

/-- The prelude is the globals stage, from the imported globals, then the exports. -/
theorem prelude_globals_stage (raw : Module) :
    ∃ V : View, V.globals = raw.importedGlobals.map
        (fun t => { type := t.valType, mutable := t.mutable, imported := true }) ∧
      prelude raw = ((foldIndexed V raw.globals addGlobal).mapError .fault >>= fun u =>
        pure (raw.exports.foldl
          (fun v e => { v with exports := v.exports.push ⟨e.name, e.idx, e.kind⟩ }) u)) := by
  refine ⟨_, ?_, rfl⟩
  -- functions, tables and memories leave the globals of the imports
  simp only [← Array.foldl_toList]
  rw [foldl_defined]
  dsimp only
  rw [(foldl_addImport_spaces raw.imports.toList _).2.2, Array.toArray_toList, Array.empty_append]
  rfl

/-- The data stage writes the memories from the globals and the memories alone. -/
theorem data_foldlM : ∀ (ds : List (DataSegment × Nat)) (v : View),
    ds.foldlM (fun v (x, i) => addData v i x) v =
      (fun ms => { v with memories := ms }) <$>
        ds.foldlM (fun ms (x, i) => dataMemories v.globals ms i x) v.memories
  | [], v => rfl
  | (d, i) :: ds, v => by
    rw [List.foldlM_cons, List.foldlM_cons]
    dsimp only
    rw [addData_eq]
    cases dataMemories v.globals v.memories i d with
    | error err => rfl
    | ok ms => exact data_foldlM ds { v with memories := ms }

/-- After a prelude that succeeds, resolution places the data and then the element segments, both
over the prelude's globals. -/
theorem ofModule_of_prelude {raw : Module} {P : View} (hP : prelude raw = .ok P) :
    ofModule raw = (do
      let ms ← (raw.data.toList.zipIdx.foldlM (fun ms (d, i) => dataMemories P.globals ms i d)
        P.memories).mapError .fault
      let ts ← raw.elements.toList.zipIdx.foldlM (fun ts (e, i) => elementTables P.globals ts i e)
        P.tables
      pure { P with memories := ms, tables := ts }) := by
  rw [ofModule_eq, hP, ok_bind]
  unfold foldIndexed
  rw [data_foldlM]
  cases raw.data.toList.zipIdx.foldlM (fun ms (d, i) => dataMemories P.globals ms i d) P.memories with
  | error e => rfl
  | ok ms =>
    -- the data stage keeps the globals and the tables the element stage reads
    rw [map_ok, mapError_ok, ok_bind, mapError_ok, ok_bind, elements_foldlM]
    cases raw.elements.toList.zipIdx.foldlM (fun ts (e, i) => elementTables P.globals ts i e)
      P.tables with
    | error e => rfl
    | ok ts => rfl

/-- A prelude that succeeds has resolved every defined global. -/
theorem prelude_globalsResolved {raw : Module} {P : View} (hP : prelude raw = .ok P) :
    GlobalsResolved raw raw.globals.size P.globals := by
  obtain ⟨V, hV, hprelude⟩ := prelude_globals_stage raw
  rw [hprelude] at hP
  obtain ⟨u, hu, rfl⟩ := mapError_bind_pure_eq_ok hP
  rcases globals_outcome raw V hV with ⟨w, hw, -, hres⟩ | ⟨f, hf, -⟩
  · rw [hw] at hu
    cases hu
    -- the exports leave the globals
    rw [← Array.foldl_toList, foldl_exports]
    exact hres
  · rw [hf] at hu
    cases hu

/-- Resolution lists the imported globals, in import order and with no value, then one entry per
defined global, each resolved in section order over the globals before it: its value is known
exactly when its initializer, reading only earlier globals whose value is known, gives a number of
its declared type. The globals stage fails exactly when an initializer fails other than on a
global that is not known, with the fault of the first such global at its index, and resolution
fails with it; otherwise the data and element segments are placed over the resolved list. -/
theorem globals_resolved (raw : Module) :
    (∀ v, ofModule raw = .ok v → GlobalsResolved raw raw.globals.size v.globals) ∧
    (∀ P, prelude raw = .ok P → GlobalsResolved raw raw.globals.size P.globals ∧
      ofModule raw = (do
        let ms ← (raw.data.toList.zipIdx.foldlM (fun ms (d, i) => dataMemories P.globals ms i d)
          P.memories).mapError .fault
        let ts ← raw.elements.toList.zipIdx.foldlM (fun ts (e, i) => elementTables P.globals ts i e)
          P.tables
        pure { P with memories := ms, tables := ts })) ∧
    (∀ x, prelude raw = .error x ↔ ∃ f, x = .fault f ∧ InitializerFails raw f) ∧
    (∀ x, prelude raw = .error x → ofModule raw = .error x) := by
  obtain ⟨V, hV, hprelude⟩ := prelude_globals_stage raw
  have hresolved : ∀ P, prelude raw = .ok P → GlobalsResolved raw raw.globals.size P.globals :=
    fun P hP => prelude_globalsResolved hP
  refine ⟨fun v hv => ?_, fun P hP => ⟨hresolved P hP, ofModule_of_prelude hP⟩, fun x => ?_,
    fun x hx => ?_⟩
  · obtain ⟨P, hP, hframe, -, -⟩ := ofModule_frame hv
    rw [hframe]
    exact hresolved P hP
  · rw [hprelude]
    rcases globals_outcome raw V hV with ⟨w, hw, -, hres⟩ | ⟨f, hf, hfails⟩
    · rw [hw]
      exact ⟨fun h => (by cases h), fun ⟨f, _, hfails⟩ => absurd hfails (hres.not_fails f)⟩
    · rw [hf]
      refine ⟨fun h => ⟨f, (Except.error.inj (h : Except.error (Failure.fault f) = _)).symm, hfails⟩,
        fun ⟨f', hx, hfails'⟩ => ?_⟩
      rw [hx, hfails.unique hfails']
      rfl
  · rw [ofModule_eq, hx]
    rfl

/-- Five defined globals over an imported i32: 65536, 1.0 as an f64, the imported global, the
first defined global plus 4, and a function reference. -/
def knownAndUnknownGlobals : Module where
  imports := #[⟨"env", "base", .global ⟨.i32, false⟩⟩]
  globals := #[
    ⟨⟨.i32, true⟩, ⟨#[0x41, 0x80, 0x80, 0x04, 0x0b]⟩⟩,
    ⟨⟨.f64, false⟩, ⟨#[0x44, 0, 0, 0, 0, 0, 0, 0xf0, 0x3f, 0x0b]⟩⟩,
    ⟨⟨.i32, false⟩, ⟨#[0x23, 0, 0x0b]⟩⟩,
    ⟨⟨.i32, false⟩, ⟨#[0x23, 1, 0x41, 4, 0x6a, 0x0b]⟩⟩,
    ⟨⟨.funcref, false⟩, ⟨#[0xd2, 1, 0x0b]⟩⟩]

/-- A defined global whose initializer adds with nothing on the stack. -/
def underflowingGlobal : Module where
  imports := #[⟨"env", "base", .global ⟨.i32, false⟩⟩]
  globals := #[⟨⟨.i32, false⟩, ⟨#[0x6a, 0x0b]⟩⟩]

/-- The imported global and the global read from it have no value, nor has the function
reference; the others are known, the sum from the global before it. An initializer that
underflows fails resolution at the index of its global, after the imported one. -/
theorem globals_resolved_known_and_failing :
    (∃ v, ofModule knownAndUnknownGlobals = .ok v ∧
      GlobalsResolved knownAndUnknownGlobals 5 v.globals ∧
      v.globals.map (·.value) = #[none, some 65536, some 0x3ff0000000000000, none, some 65540, none]) ∧
    ofModule underflowingGlobal = .error (.fault ((Fault.wrap .resolve .invalidData
      "constant expression stack underflow" "initializer of defined global 0").atPath ["global", "1"])) ∧
    InitializerFails underflowingGlobal ((Fault.wrap .resolve .invalidData
      "constant expression stack underflow" "initializer of defined global 0").atPath ["global", "1"]) := by
  -- the first defined global underflows, over the imported one
  have hfails : InitializerFails underflowingGlobal ((Fault.wrap .resolve .invalidData
      "constant expression stack underflow" "initializer of defined global 0").atPath
      ["global", "1"]) :=
    ⟨0, _, _, .underflow, rfl, GlobalsResolved.init underflowingGlobal, by cbv, by decide, rfl⟩
  have hfail := ((globals_resolved underflowingGlobal).2.2.1 _).mpr ⟨_, rfl, hfails⟩
  refine ⟨?_, (globals_resolved underflowingGlobal).2.2.2 _ hfail, hfails⟩
  have hvalues : (ofModule knownAndUnknownGlobals).toOption.map (fun v => v.globals.map (·.value)) =
      some #[none, some 65536, some 0x3ff0000000000000, none, some 65540, none] := by cbv
  cases hv : ofModule knownAndUnknownGlobals with
  | error e =>
    rw [hv] at hvalues
    cases hvalues
  | ok v =>
    rw [hv] at hvalues
    exact ⟨v, rfl, (globals_resolved knownAndUnknownGlobals).1 v hv, Option.some.inj hvalues⟩

end WasmImage.View
