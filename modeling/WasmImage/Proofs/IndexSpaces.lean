import WasmImage.Proofs.Tables

/-!
# Index spaces

Functions, tables, memories and globals each have an index space: the imports of that kind, in
the order of the imports, then the module's own definitions. Resolution builds the view's lists
that way, and gives each import the index it has in the space of its kind: the number of imports
of that kind before it. The later stages change the lists only in the contents of memories and tables.
So at every index the view and the module's own queries (`Module.funcType?`, `globalType?`,
`tableType?`, `memory64`) agree (`View.index_spaces_agree`).
-/

namespace WasmImage

namespace Wasm.Module

/-- The global types of the index space, imports first. -/
theorem globalType?_eq (m : Module) (idx : UInt32) :
    m.globalType? idx = (m.importedGlobals ++ m.globals.map (·.type))[idx.toNat]? := by
  rw [globalType?, Array.getElem?_append]
  split
  · rfl
  · simp

/-- The table types of the index space, imports first. -/
theorem tableType?_eq (m : Module) (idx : UInt32) :
    m.tableType? idx = (m.importedTables ++ m.tables)[idx.toNat]? := by
  rw [tableType?, Array.getElem?_append]

/-- Whether a memory of the index space, imports first, is 64-bit; false past its end. -/
theorem memory64_eq (m : Module) (idx : UInt32) :
    m.memory64 idx = ((m.importedMemories ++ m.memories)[idx.toNat]?.map (·.memory64)).getD false := by
  rw [memory64, Array.getElem?_append]
  split <;> rename_i hl <;> rw [hl] <;> rfl

end Wasm.Module

namespace View

open Wasm

/-! ## Lists built entry by entry -/

section Fields

variable {α β : Type}

/-- A fold whose every step adds at most one entry to a list of the view adds them in order. -/
theorem foldl_field (field : View → Array β) {f : View → α → View} (g : α → Option β)
    (hf : ∀ v a, field (f v a) = field v ++ (g a).toArray) :
    ∀ (l : List α) (v : View), field (l.foldl f v) = field v ++ (l.filterMap g).toArray
  | [], v => by simp
  | a :: l, v => by
    rw [List.foldl_cons, foldl_field field g hf l, hf]
    cases hg : g a <;> simp [hg]

/-- The same for a fold that may fail, when it succeeds. -/
theorem foldlM_field {ε : Type} (field : View → Array β) {f : View → α → Except ε View}
    (g : α → Option β) (hf : ∀ v a w, f v a = .ok w → field w = field v ++ (g a).toArray) :
    ∀ (l : List α) (v w : View), l.foldlM f v = .ok w → field w = field v ++ (l.filterMap g).toArray
  | [], v, w, h => by
    cases h
    simp
  | a :: l, v, w, h => by
    rw [List.foldlM_cons] at h
    obtain ⟨u, hu, h⟩ := bind_eq_ok h
    rw [foldlM_field field g hf l u w h, hf v a u hu]
    cases hg : g a <;> simp [hg]

end Fields

/-! ## Imports -/

/-- How many entries the view lists in the index space of a kind. -/
def spaceSize (v : View) : ExternKind → Nat
  | .func => v.funcs.size
  | .table => v.tables.size
  | .memory => v.memories.size
  | .global => v.globals.size

theorem addImport_imports (v : View) (imp : Import) :
    (addImport v imp).imports =
      v.imports.push ⟨imp.module, imp.name, (v.spaceSize imp.desc.kind).toUInt32, imp.desc.kind⟩ := by
  cases hd : imp.desc <;> simp [addImport, hd, spaceSize, ImportDesc.kind]

theorem addImport_spaceSize (v : View) (imp : Import) (k : ExternKind) :
    (addImport v imp).spaceSize k = v.spaceSize k + if imp.desc.kind = k then 1 else 0 := by
  cases hd : imp.desc <;> cases k <;> simp [addImport, hd, spaceSize, ImportDesc.kind]

/-- Each import takes the next index of its kind: the size of its space so far, and the number of
imports of its kind before it in the list. -/
theorem foldl_addImport_imports : ∀ (imps : List Import) (v : View),
    (imps.foldl addImport v).imports.toList = v.imports.toList ++ imps.mapIdx (fun j imp =>
      ⟨imp.module, imp.name,
        (v.spaceSize imp.desc.kind + (imps.take j).countP (·.desc.kind == imp.desc.kind)).toUInt32,
        imp.desc.kind⟩) ∧
    ∀ k, (imps.foldl addImport v).spaceSize k = v.spaceSize k + imps.countP (·.desc.kind == k)
  | [], v => by simp
  | imp :: imps, v => by
    obtain ⟨himports, hsize⟩ := foldl_addImport_imports imps (addImport v imp)
    rw [List.foldl_cons, himports, addImport_imports, List.mapIdx_cons, Array.toList_push,
      List.append_assoc, List.singleton_append]
    refine ⟨?_, fun k => ?_⟩
    · -- the imports after the first count it when they are of its kind
      rw [List.append_cancel_left_eq, List.cons.injEq]
      refine ⟨by simp, congrArg (List.mapIdx · imps) (funext fun j => funext fun imp' => ?_)⟩
      rw [List.take_succ_cons, List.countP_cons, addImport_spaceSize]
      have hcount : (if imp.desc.kind = imp'.desc.kind then 1 else 0) =
          (if (imp.desc.kind == imp'.desc.kind) = true then 1 else 0) := by simp
      rw [hcount]
      ac_rfl
    · rw [hsize, addImport_spaceSize, List.countP_cons]
      simp only [beq_iff_eq]
      omega

/-- Imports add, in order, the tables, memories and globals they import. -/
theorem foldl_addImport_spaces : ∀ (imps : List Import) (v : View),
    (imps.foldl addImport v).tables =
      v.tables ++ ({ imports := imps.toArray } : Module).importedTables.map (TableData.ofType · true) ∧
    (imps.foldl addImport v).memories =
      v.memories ++ ({ imports := imps.toArray } : Module).importedMemories.map (MemoryData.ofLimits · true) ∧
    (imps.foldl addImport v).globals =
      v.globals ++ ({ imports := imps.toArray } : Module).importedGlobals.map
        fun g => { type := g.valType, mutable := g.mutable, imported := true }
  | [], v => by simp [Module.importedTables, Module.importedMemories, Module.importedGlobals]
  | imp :: imps, v => by
    obtain ⟨ht, hm, hg⟩ := foldl_addImport_spaces imps (addImport v imp)
    rw [List.foldl_cons, ht, hm, hg]
    cases hd : imp.desc <;>
      simp [addImport, hd, Module.importedTables, Module.importedMemories, Module.importedGlobals]

/-! ## The prelude -/

/-- A fold that pushes one entry per item onto one list of the view appends them all. -/
theorem foldl_push {α β : Type} (get : View → Array β) (set : View → Array β → View) (g : α → β)
    (hget : ∀ v a, get (set v a) = a) (hset : ∀ v a b, set (set v a) b = set v b)
    (hsame : ∀ v, set v (get v) = v) :
    ∀ (l : List α) (v : View),
      l.foldl (fun v t => set v ((get v).push (g t))) v = set v (get v ++ (l.map g).toArray)
  | [], v => by simp [hsame]
  | a :: l, v => by
    rw [List.foldl_cons, foldl_push get set g hget hset hsame l, hget, hset]
    simp

/-- Functions, tables and memories add the module's own definitions after the imported ones. -/
theorem foldl_defined (raw : Module) (v : View) :
    raw.memories.toList.foldl (fun v l => { v with memories := v.memories.push (.ofLimits l false) })
        (raw.tables.toList.foldl (fun v t => { v with tables := v.tables.push (.ofType t false) })
          (raw.funcs.toList.foldl (fun v t => { v with funcs := v.funcs.push ⟨t, false⟩ }) v)) =
      { v with
        funcs := v.funcs ++ raw.funcs.map (⟨·, false⟩)
        tables := v.tables ++ raw.tables.map (TableData.ofType · false)
        memories := v.memories ++ raw.memories.map (MemoryData.ofLimits · false) } := by
  rw [foldl_push View.funcs (fun v fs => { v with funcs := fs }) _ (fun _ _ => rfl)
    (fun _ _ _ => rfl) (fun _ => rfl), foldl_push View.tables (fun v ts => { v with tables := ts }) _
    (fun _ _ => rfl) (fun _ _ _ => rfl) (fun _ => rfl), foldl_push View.memories
    (fun v ms => { v with memories := ms }) _ (fun _ _ => rfl) (fun _ _ _ => rfl) (fun _ => rfl)]
  simp only [← List.map_toArray, Array.toArray_toList]

/-- The exports add their references and change nothing else. -/
theorem foldl_exports (raw : Module) (v : View) :
    raw.exports.toList.foldl (fun v e => { v with exports := v.exports.push ⟨e.name, e.idx, e.kind⟩ }) v =
      { v with exports := v.exports ++ raw.exports.map fun e => ⟨e.name, e.idx, e.kind⟩ } := by
  rw [foldl_push View.exports (fun v es => { v with exports := es }) _ (fun _ _ => rfl)
    (fun _ _ _ => rfl) (fun _ => rfl), ← List.map_toArray, Array.toArray_toList]

/-- Defined global `i` adds one entry, of the global's type and mutability. -/
theorem addGlobal_push {v w : View} {i : Nat} {g : Global} (h : addGlobal v i g = .ok w) :
    ∃ value, w.globals = v.globals.push
      { type := g.type.valType, mutable := g.type.mutable, imported := false, value } := by
  unfold addGlobal at h
  simp only [bind, Except.bind] at h
  split at h
  · cases h
    exact ⟨_, rfl⟩
  · cases h
    exact ⟨_, rfl⟩
  · cases h

/-- The globals stage changes nothing but the globals. -/
theorem globals_frame {v w : View} {gs : List (Global × Nat)}
    (h : gs.foldlM (fun v (x, i) => addGlobal v i x) v = .ok w) : w = { v with globals := w.globals } :=
  foldlM_inv (fun u => u = { v with globals := u.globals }) gs
    (fun u _ u' _ hu hstep => by rw [addGlobal_frame hstep, hu]) v w rfl h

/-- What the prelude lists, imports first: the tables and memories with their types, the
imports with their indices, and the globals with their types and mutability. -/
theorem prelude_spaces {raw : Module} {P : View} (h : prelude raw = .ok P) :
    P.tables = raw.importedTables.map (TableData.ofType · true) ++ raw.tables.map (TableData.ofType · false) ∧
    P.memories = raw.importedMemories.map (MemoryData.ofLimits · true) ++
      raw.memories.map (MemoryData.ofLimits · false) ∧
    P.imports.toList = raw.imports.toList.mapIdx (fun j imp => ⟨imp.module, imp.name,
      ((raw.imports.toList.take j).countP (·.desc.kind == imp.desc.kind)).toUInt32, imp.desc.kind⟩) ∧
    P.globals.map (fun d => (d.type, d.mutable)) =
      (raw.importedGlobals ++ raw.globals.map (·.type)).map fun t => (t.valType, t.mutable) := by
  unfold prelude foldIndexed at h
  simp only [← Array.foldl_toList] at h
  obtain ⟨u, hu, rfl⟩ := mapError_bind_pure_eq_ok h
  -- the stages: imports, the module's own functions, tables and memories, globals, exports
  rw [foldl_exports]
  rw [foldl_defined] at hu
  have hmid := globals_frame hu
  -- the defined globals add one entry each, of their type and mutability
  have hglobals := foldlM_field (fun v => v.globals.map fun d => (d.type, d.mutable))
    (fun x : Global × Nat => some (x.1.type.valType, x.1.type.mutable))
    (fun v a w hw => by
      obtain ⟨value, hv⟩ := addGlobal_push hw
      simp [hv]) _ _ _ hu
  obtain ⟨ht, hm, hg⟩ := foldl_addImport_spaces raw.imports.toList { raw, signatures := raw.types }
  have himports := (foldl_addImport_imports raw.imports.toList { raw, signatures := raw.types }).1
  -- the spaces start empty, and the imported entries are the module's
  have hempty : ∀ k, ({ raw, signatures := raw.types } : View).spaceSize k = 0 := by
    intro k
    cases k <;> rfl
  have himported : ({ imports := raw.imports } : Module).importedTables = raw.importedTables ∧
      ({ imports := raw.imports } : Module).importedMemories = raw.importedMemories ∧
      ({ imports := raw.imports } : Module).importedGlobals = raw.importedGlobals := ⟨rfl, rfl, rfl⟩
  simp only [Array.toArray_toList, himported] at ht hm hg
  simp only [hempty, Nat.zero_add] at himports
  generalize hV : raw.imports.toList.foldl addImport { raw, signatures := raw.types } = V at *
  refine ⟨?_, ?_, ?_, ?_⟩
  · rw [hmid]
    simp only [ht, Array.empty_append]
  · rw [hmid]
    simp only [hm, Array.empty_append]
  · rw [hmid]
    simpa using himports
  · -- one entry per defined global, of its type, after the imported ones
    have hfst : raw.globals.toList.zipIdx.map (fun x => (x.1.type.valType, x.1.type.mutable)) =
        raw.globals.toList.map fun g => (g.type.valType, g.type.mutable) := by
      rw [show (fun x : Global × Nat => (x.1.type.valType, x.1.type.mutable)) =
        (fun g : Global => (g.type.valType, g.type.mutable)) ∘ Prod.fst from rfl, ← List.map_map,
        List.zipIdx_map_fst]
    simp only at hglobals ⊢
    rw [hglobals, hg, show (fun x : Global × Nat => some (x.1.type.valType, x.1.type.mutable)) =
      some ∘ (fun x => (x.1.type.valType, x.1.type.mutable)) from rfl, List.filterMap_eq_map, hfst,
      ← List.map_toArray]
    simp only [Array.toArray_toList, Array.empty_append, Array.map_append, Array.map_map]
    rfl

/-! ## After the prelude -/

/-- The segment stages change nothing the prelude built but the contents of memories and
tables. -/
theorem ofModule_frame {raw : Module} {v : View} (h : ofModule raw = .ok v) :
    ∃ P, prelude raw = .ok P ∧ v = { P with memories := v.memories, tables := v.tables } ∧
      v.memories.map MemoryData.clear = P.memories.map MemoryData.clear ∧
      v.tables.map TableData.clear = P.tables.map TableData.clear := by
  rw [ofModule_eq] at h
  obtain ⟨P, hP, h⟩ := bind_eq_ok h
  obtain ⟨Q, hQ, hV⟩ := bind_eq_ok h
  unfold foldIndexed at hQ hV
  obtain ⟨hQP, hclear⟩ := data_frame _ 0 Q (mapError_eq_ok hQ)
  rw [elements_foldlM] at hV
  obtain ⟨ts, hts, rfl⟩ := map_eq_ok hV
  have hgt : Q.globals = P.globals ∧ Q.tables = P.tables := by
    rw [hQP]
    exact ⟨rfl, rfl⟩
  rw [hgt.1, hgt.2] at hts
  -- the element stage keeps the tables but for their slots
  have hframe : ts.map TableData.clear = P.tables.map TableData.clear := by
    rcases elements_outcome P (prelude_unfilled hP) raw.elements.toList.zipIdx with
      ⟨ts', hts', hfill⟩ | ⟨err, herr, -⟩
    · rw [hts] at hts'
      cases hts'
      exact hfill.frame
    · rw [hts] at herr
      cases herr
  refine ⟨P, hP, ?_, hclear, hframe⟩
  conv_lhs => rw [hQP]

/-- The view's index spaces are the module's: at every index, the same function type, the same
global value type and mutability, the same table element type and the same memory addressing,
each present in the view exactly when the module's query finds it; and every import has, as its
index, the number of imports of its kind before it. -/
theorem index_spaces_agree {raw : Module} {v : View} (h : ofModule raw = .ok v) :
    (∀ f, v.funcType? f = raw.funcType? f) ∧
    (∀ i : UInt32, v.globals[i.toNat]?.map (fun d => (d.type, d.mutable)) =
      (raw.globalType? i).map fun t => (t.valType, t.mutable)) ∧
    (∀ i : UInt32, v.tables[i.toNat]?.map (·.elemType) = (raw.tableType? i).map (·.elemType)) ∧
    (∀ i : UInt32, ∀ md ∈ v.memories[i.toNat]?, md.memory64 = raw.memory64 i) ∧
    v.imports = raw.imports.mapIdx fun j imp => ⟨imp.module, imp.name,
      ((raw.imports.toList.take j).countP (·.desc.kind == imp.desc.kind)).toUInt32, imp.desc.kind⟩ := by
  obtain ⟨P, hP, hv, hmem, htab⟩ := ofModule_frame h
  obtain ⟨ht, hm, hi, hg⟩ := prelude_spaces hP
  -- element types and addressing survive the segment stages, which only fill contents
  have htypes : v.tables.map (·.elemType) = (raw.importedTables ++ raw.tables).map (·.elemType) := by
    have hclear := congrArg (Array.map (·.elemType)) htab
    simp only [Array.map_map] at hclear
    rw [show (fun t : TableData => t.elemType) ∘ TableData.clear = (·.elemType) from rfl, ht] at hclear
    rw [hclear]
    simp [TableData.ofType, Function.comp_def]
  have haddr : v.memories.map (·.memory64) =
      (raw.importedMemories ++ raw.memories).map (·.memory64) := by
    have hclear := congrArg (Array.map (·.memory64)) hmem
    simp only [Array.map_map] at hclear
    rw [show (fun md : MemoryData => md.memory64) ∘ MemoryData.clear = (·.memory64) from rfl, hm] at hclear
    rw [hclear]
    simp [MemoryData.ofLimits, Function.comp_def]
  refine ⟨ofModule_funcType h, fun i => ?_, fun i => ?_, fun i md hmd => ?_, ?_⟩
  · rw [hv, Module.globalType?_eq, ← Array.getElem?_map, ← Array.getElem?_map]
    exact congrArg (·[i.toNat]?) hg
  · rw [Module.tableType?_eq, ← Array.getElem?_map, ← Array.getElem?_map, htypes]
  · have hget := congrArg (·[i.toNat]?) haddr
    simp only [Array.getElem?_map] at hget
    rw [Module.memory64_eq, ← hget, Option.mem_def.mp hmd]
    rfl
  · rw [hv]
    apply Array.toList_inj.mp
    rw [hi, Array.toList_mapIdx]

/-- Five imports of three kinds, interleaved, and a defined global after the imported ones. -/
def interleavedImports : Module where
  imports := #[
    ⟨"env", "g0", .global ⟨.i32, false⟩⟩,
    ⟨"env", "t0", .table ⟨.funcref, ⟨1, none, false, false⟩⟩⟩,
    ⟨"env", "g1", .global ⟨.i64, true⟩⟩,
    ⟨"env", "m0", .memory ⟨1, none, false, true⟩⟩,
    ⟨"env", "t1", .table ⟨.externref, ⟨0, none, false, false⟩⟩⟩]
  globals := #[⟨⟨.f32, true⟩, ⟨#[0x43, 0, 0, 0x80, 0x3f, 0x0b]⟩⟩]

/-- Each import takes the next index of its own kind, and the defined global comes after the two
imported ones. -/
theorem interleaved_import_indices :
    ∃ v, ofModule interleavedImports = .ok v ∧ v.imports.map (·.index) = #[0, 0, 1, 0, 1] ∧
      v.globals[2]?.map (fun d => (d.type, d.mutable)) = some (.f32, true) := by
  obtain ⟨v, hv⟩ : ∃ v, ofModule interleavedImports = .ok v := ⟨_, rfl⟩
  obtain ⟨-, hglobals, -, -, himports⟩ := index_spaces_agree hv
  refine ⟨v, hv, ?_, ?_⟩
  · rw [himports]
    cbv
  · rw [show (2 : Nat) = (2 : UInt32).toNat from rfl, hglobals]
    cbv

end View

end WasmImage
