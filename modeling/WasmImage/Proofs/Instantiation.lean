import WasmImage.Proofs.ConstExpr
import WasmImage.Proofs.Overlay
import WasmImage.Image.Memory

/-!
# Instantiating a module

What instantiation computes for a module that imports only functions, its start function not
run (WebAssembly 2.0, §4.5.4): the defined globals take the values of their initializers, in
order, each reading the globals before it; every memory starts as its initial pages of zeros and
every table as its initial size of null references; then the active element segments, in order,
write their references into their tables, and the active data segments, in order, their bytes
into their memories. A segment that does not fit its table or memory traps, and instantiation
fails (`Module.TrapsOutOfBounds`); otherwise it succeeds with the state it built
(`Module.Instantiates`).

Constant expressions run by the typing rules of wasm (`ConstExpr.Evaluates`), and a segment's
offset is an i32, read as unsigned. A run by those rules never consumes a reference, so an
expression whose value is a number reads only globals that hold numbers
(`ConstExpr.Evaluates.restrict`).

After its writes, a memory holds the overlay of the data segments placed into it over zeros, and a
table the overlay of its element segments over nulls (`Folds.memory_overlay`,
`Folds.table_overlay`).
-/

namespace WasmImage.Wasm

/-! ## Constant expressions by the typing rules -/

/-- `global.get j` reads entry `j` of `gs`. -/
def lookupIn (gs : List ConstValue) : GlobalLookup := fun j => gs[j.toNat]?

/-- A value that is a number is not a null reference. -/
def ConstValue.Clean (c : ConstValue) : Prop := c.type.isNumeric = true → c.null = false

/-- A number that is not null is its type and bits. -/
theorem ConstValue.Clean.eta {c : ConstValue} (h : c.Clean) (hn : c.type.isNumeric = true) :
    ({ type := c.type, bits := c.bits } : ConstValue) = c := by
  cases c
  simp_all [ConstValue.Clean]

/-- The reference a value holds: the function it names, or none for null. -/
def ConstValue.ref (v : ConstValue) : Option UInt32 := if v.null then none else some v.bits.toUInt32

namespace ConstExpr

/-- Expression `e` evaluates to `v` by the typing rules of wasm, `global.get` reading `globals`:
the instructions before an end opcode run from the empty stack to the one value `v`. -/
def Evaluates (globals : GlobalLookup) (e : ByteArray) (v : ConstValue) : Prop :=
  ∃ code is rest, e.data.toList = code ++ 0x0b :: rest ∧ ConstInstrs code is ∧
    ConstInstr.run .typed (some globals) is [] = some [v]

/-- Offset expression `e` evaluates to `o`: an i32, read as unsigned. -/
def Offset (globals : GlobalLookup) (e : ByteArray) (o : Nat) : Prop :=
  ∃ v, Evaluates globals e v ∧ v.type = .i32 ∧ o = v.bits.toUInt32.toNat

end ConstExpr

/-! ## Instantiation -/

/-- The number of items of an element segment. -/
def Element.count (e : Element) : Nat :=
  match e.items with
  | .funcs fs => fs.length
  | .exprs es => es.length

/-- The references of element segment `e` for a table of element type `t`: the functions it
lists, into a funcref table, or the values of its expressions, each of type `t`. -/
def Element.Refs (globals : GlobalLookup) (e : Element) (t : ValType) (rs : List (Option UInt32)) :
    Prop :=
  match e.items with
  | .funcs fs => t = .funcref ∧ rs = fs.map some
  | .exprs es => List.Forall₂ (fun x r => ∃ v, ConstExpr.Evaluates globals x v ∧ v.type = t ∧ r = v.ref) es rs

/-- The state of an instance: the value of each defined global, the bytes of each memory, and the
reference in each slot of each table. -/
structure Instance where
  globals : List ConstValue
  memories : List (List UInt8)
  tables : List (List (Option UInt32))

namespace Module

/-- The module imports nothing but functions. -/
def ImportsOnlyFuncs (m : Module) : Prop := ∀ imp ∈ m.imports, imp.desc.kind = .func

/-- The values the defined globals of `m` take, in order: each initializer, reading the globals
before it, evaluates to a value of the global's type. -/
structure GlobalValues (m : Module) (gs : List ConstValue) : Prop where
  length : gs.length = m.globals.size
  value : ∀ i (h : i < gs.length) (hi : i < m.globals.size),
    ConstExpr.Evaluates (lookupIn (gs.take i)) m.globals[i].init gs[i] ∧
      gs[i].type = m.globals[i].type.valType

/-- The instance before any segment is written: the globals `gs`, every memory its initial
pages of zeros, every table its initial size of nulls. -/
def fresh (m : Module) (gs : List ConstValue) : Instance where
  globals := gs
  memories := m.memories.toList.map fun l => List.replicate (l.min.toNat * pageSize) 0
  tables := m.tables.toList.map fun t => List.replicate t.limits.min.toNat none

end Module

/-- Element segment `e` as instantiation writes it: a passive or declarative segment writes
nothing; an active one, whose offset and references evaluate over the instance's globals and
which fits its table, overwrites the table's slots from the offset. -/
inductive ElemWrite (m : Module) : Element → Instance → Instance → Prop
  | skip {e : Element} {inst : Instance} : e.isActive = false → ElemWrite m e inst inst
  | write {e : Element} {inst : Instance} {off : ByteArray} {o : Nat} {tt : TableType}
      {rs slots : List (Option UInt32)} :
      e.isActive = true → e.offset = some off → ConstExpr.Offset (lookupIn inst.globals) off o →
      m.tables[e.tableIdx.toNat]? = some tt → e.Refs (lookupIn inst.globals) tt.elemType rs →
      inst.tables[e.tableIdx.toNat]? = some slots → o + rs.length ≤ slots.length →
      ElemWrite m e inst { inst with tables := inst.tables.set e.tableIdx.toNat (place slots ⟨o, rs⟩) }

/-- Data segment `d` as instantiation writes it: a passive segment writes nothing; an active one,
whose offset evaluates over the instance's globals and which fits its memory, overwrites the
memory's bytes from the offset. -/
inductive DataWrite : DataSegment → Instance → Instance → Prop
  | skip {d : DataSegment} {inst : Instance} : d.isActive = false → DataWrite d inst inst
  | write {d : DataSegment} {inst : Instance} {off : ByteArray} {o : Nat} {bytes : List UInt8} :
      d.isActive = true → d.offset = some off → ConstExpr.Offset (lookupIn inst.globals) off o →
      inst.memories[d.memIdx.toNat]? = some bytes → o + d.init.size ≤ bytes.length →
      DataWrite d inst
        { inst with memories := inst.memories.set d.memIdx.toNat (place bytes ⟨o, d.init.data.toList⟩) }

/-- `step` taken for each of `xs` in turn. -/
inductive Folds {α σ : Type} (step : α → σ → σ → Prop) : List α → σ → σ → Prop
  | nil (s : σ) : Folds step [] s s
  | cons {a : α} {as : List α} {s s₁ s₂ : σ} : step a s s₁ → Folds step as s₁ s₂ →
      Folds step (a :: as) s s₂

namespace Module

/-- Instantiating `m` succeeds with `inst`: the globals take their values, then the active element
segments are written in order, then the active data segments, each within its table or memory. -/
def Instantiates (m : Module) (inst : Instance) : Prop :=
  m.GlobalValues inst.globals ∧ ∃ mid, Folds (ElemWrite m) m.elements.toList (m.fresh inst.globals) mid ∧
    Folds DataWrite m.data.toList mid inst

end Module

/-- Active element segment `e` lies past the end of its table: its offset, evaluated over the
globals `gs`, plus its number of items exceeds the table's initial size. -/
def Element.OutOfBounds (m : Module) (gs : List ConstValue) (e : Element) : Prop :=
  e.isActive = true ∧ ∃ off o tt, e.offset = some off ∧ ConstExpr.Offset (lookupIn gs) off o ∧
    m.tables[e.tableIdx.toNat]? = some tt ∧ tt.limits.min.toNat < o + e.count

/-- Active data segment `d` lies past the end of its memory: its offset, evaluated over the
globals `gs`, plus its length exceeds the memory's initial pages. -/
def DataSegment.OutOfBounds (m : Module) (gs : List ConstValue) (d : DataSegment) : Prop :=
  d.isActive = true ∧ ∃ off o l, d.offset = some off ∧ ConstExpr.Offset (lookupIn gs) off o ∧
    m.memories[d.memIdx.toNat]? = some l ∧ l.min.toNat * pageSize < o + d.init.size

/-- Instantiating `m` traps on a segment out of bounds: the globals take their values, and an
active element or data segment does not fit its table or memory. -/
def Module.TrapsOutOfBounds (m : Module) : Prop :=
  ∃ gs, m.GlobalValues gs ∧ ((∃ e ∈ m.elements, e.OutOfBounds m gs) ∨ ∃ d ∈ m.data, d.OutOfBounds m gs)

/-! ## Runs by the typing rules -/

namespace ConstInstr

variable {r : ConstRules}

/-- A run that reads globals from `G'` runs the same with `G`, which knows all `G'` knows. -/
theorem run_mono {G G' : Option GlobalLookup}
    (hG : ∀ j c, G'.bind (· j) = some c → G.bind (· j) = some c) :
    ∀ {is : List ConstInstr} {s s' : List ConstValue}, run r G' is s = some s' → run r G is s = some s'
  | [], _, _, h => h
  | i :: is, s, s', h => by
    obtain ⟨s₁, hi, hrest⟩ := run_cons_eq_some r G' h
    have hi' : i.exec r G s = some s₁ := by
      cases i with
      | globalGet idx =>
        obtain ⟨c, hc, rfl⟩ := Option.map_eq_some_iff.mp hi
        exact Option.map_eq_some_iff.mpr ⟨c, hG idx c hc, rfl⟩
      | i32Arith op => rcases s with _ | ⟨b, _ | ⟨a, s⟩⟩ <;> exact hi
      | i64Arith op => rcases s with _ | ⟨b, _ | ⟨a, s⟩⟩ <;> exact hi
      | _ => exact hi
    rw [run, hi', Option.bind_some]
    exact run_mono hG hrest

/-- An instruction under the typing rules never takes a value that is not a number off the
stack: arithmetic takes two numbers of its own type. -/
theorem exec_typed_keeps {G : Option GlobalLookup} {i : ConstInstr} {s s' : List ConstValue}
    (h : i.exec .typed G s = some s') {c : ConstValue} (hc : c ∈ s) (hnum : c.type.isNumeric = false) :
    c ∈ s' := by
  cases i with
  | refNull t =>
    simp only [exec] at h
    split at h
    · cases h
      exact List.mem_cons_of_mem _ hc
    · cases h
  | globalGet idx =>
    obtain ⟨d, -, rfl⟩ := Option.map_eq_some_iff.mp h
    exact List.mem_cons_of_mem _ hc
  | i32Arith op =>
    rcases s with _ | ⟨b, _ | ⟨a, rest⟩⟩
    · cases h
    · cases h
    simp only [exec, ConstRules.typed, Bool.and_eq_true, beq_iff_eq] at h
    split at h
    · rename_i htypes
      cases h
      -- both operands are i32 numbers, so `c` lies under them
      rcases List.mem_cons.mp hc with rfl | hc
      · simp [htypes.2, ValType.isNumeric] at hnum
      rcases List.mem_cons.mp hc with rfl | hc
      · simp [htypes.1, ValType.isNumeric] at hnum
      exact List.mem_cons_of_mem _ hc
    · cases h
  | i64Arith op =>
    rcases s with _ | ⟨b, _ | ⟨a, rest⟩⟩
    · cases h
    · cases h
    simp only [exec, ConstRules.typed, Bool.and_eq_true, beq_iff_eq] at h
    split at h
    · rename_i htypes
      cases h
      rcases List.mem_cons.mp hc with rfl | hc
      · simp [htypes.2, ValType.isNumeric] at hnum
      rcases List.mem_cons.mp hc with rfl | hc
      · simp [htypes.1, ValType.isNumeric] at hnum
      exact List.mem_cons_of_mem _ hc
    · cases h
  | _ =>
    cases h
    exact List.mem_cons_of_mem _ hc

/-- A value that is not a number stays on the stack to the end of a run by the typing rules. -/
theorem run_typed_keeps {G : Option GlobalLookup} {c : ConstValue} (hnum : c.type.isNumeric = false) :
    ∀ {is : List ConstInstr} {s s' : List ConstValue}, run .typed G is s = some s' → c ∈ s → c ∈ s'
  | [], _, _, h, hc => by
    cases h
    exact hc
  | _ :: _, _, _, h, hc => by
    obtain ⟨s₁, hi, hrest⟩ := run_cons_eq_some _ _ h
    exact run_typed_keeps hnum hrest (exec_typed_keeps hi hc hnum)

/-- A run by the typing rules that ends with numbers only reads globals that hold numbers, so it
runs the same with any lookup that agrees on those. -/
theorem run_typed_restrict {L L' : GlobalLookup}
    (hL : ∀ j c, L j = some c → c.type.isNumeric = true → L' j = some c) :
    ∀ {is : List ConstInstr} {s s' : List ConstValue}, run .typed (some L) is s = some s' →
      (∀ c ∈ s', c.type.isNumeric = true) → run .typed (some L') is s = some s'
  | [], _, _, h, _ => h
  | i :: is, s, s', h, hnum => by
    obtain ⟨s₁, hi, hrest⟩ := run_cons_eq_some _ _ h
    have hi' : i.exec .typed (some L') s = some s₁ := by
      cases i with
      | globalGet idx =>
        obtain ⟨c, hc, rfl⟩ := Option.map_eq_some_iff.mp hi
        -- the global read stays on the stack, so it holds a number
        have hcnum : c.type.isNumeric = true := by
          cases hct : c.type.isNumeric
          · exact absurd (hnum c (run_typed_keeps hct hrest List.mem_cons_self)) (by simp [hct])
          · rfl
        exact Option.map_eq_some_iff.mpr ⟨c, hL idx c hc hcnum, rfl⟩
      | i32Arith op => rcases s with _ | ⟨b, _ | ⟨a, s⟩⟩ <;> exact hi
      | i64Arith op => rcases s with _ | ⟨b, _ | ⟨a, s⟩⟩ <;> exact hi
      | _ => exact hi
    rw [run, hi', Option.bind_some]
    exact run_typed_restrict hL hrest hnum

/-- Under the typing rules every number on the stack is not null, when the globals read are such:
`ref.null` takes a reference type. -/
theorem run_typed_clean {L : GlobalLookup} (hL : ∀ j c, L j = some c → c.Clean) :
    ∀ {is : List ConstInstr} {s s' : List ConstValue}, run .typed (some L) is s = some s' →
      (∀ c ∈ s, c.Clean) → ∀ c ∈ s', c.Clean
  | [], _, _, h, hs => by
    cases h
    exact hs
  | i :: is, s, s', h, hs => by
    obtain ⟨s₁, hi, hrest⟩ := run_cons_eq_some _ _ h
    refine run_typed_clean hL hrest fun c hc => ?_
    -- a pushed number is not null; what was on the stack is kept or consumed
    have hpush : ∀ (d : ConstValue) (t : List ConstValue), d.Clean → (∀ c ∈ t, c.Clean) →
        c ∈ d :: t → c.Clean := fun d t hd ht hc => by
      rcases List.mem_cons.mp hc with rfl | hc
      · exact hd
      · exact ht c hc
    have hnull : ∀ (t : ValType) (bits : UInt64), ({ type := t, bits } : ConstValue).Clean :=
      fun _ _ _ => rfl
    cases i with
    | refNull t =>
      simp only [exec, ConstRules.typed, Bool.or_eq_true, beq_iff_eq] at hi
      split at hi
      · rename_i ht
        cases hi
        refine hpush _ _ (fun hn => ?_) hs hc
        rcases ht with ht | ht <;> simp [ht, ValType.isNumeric] at hn <;> contradiction
      · cases hi
    | globalGet idx =>
      obtain ⟨d, hd, rfl⟩ := Option.map_eq_some_iff.mp hi
      exact hpush _ _ (hL idx d hd) hs hc
    | i32Arith op =>
      rcases s with _ | ⟨b, _ | ⟨a, rest⟩⟩
      · cases hi
      · cases hi
      simp only [exec] at hi
      split at hi
      · cases hi
        exact hpush _ _ (hnull _ _) (fun c hc => hs c (by simp [hc])) hc
      · cases hi
    | i64Arith op =>
      rcases s with _ | ⟨b, _ | ⟨a, rest⟩⟩
      · cases hi
      · cases hi
      simp only [exec] at hi
      split at hi
      · cases hi
        exact hpush _ _ (hnull _ _) (fun c hc => hs c (by simp [hc])) hc
      · cases hi
    | _ =>
      cases hi
      exact hpush _ _ (hnull _ _) hs hc

end ConstInstr

namespace ConstExpr

variable {L L' : GlobalLookup} {e : ByteArray} {v : ConstValue}

/-- The evaluator gives the value of a well-typed expression. -/
theorem Evaluates.eval (h : Evaluates L e v) : ConstValue.eval e (some L) = .ok v := by
  obtain ⟨code, is, rest, he, hcode, hrun⟩ := h
  exact eval_of_runs he hcode (ConstInstr.run_of_allows ConstRules.sameType_allows_typed hrun)

theorem Evaluates.unique {v' : ConstValue} (h : Evaluates L e v) (h' : Evaluates L e v') : v = v' := by
  have h₁ := h.eval
  rw [h'.eval] at h₁
  exact (Except.ok.inj h₁).symm

/-- A lookup that knows more leaves every value of the evaluator as it was. -/
theorem eval_mono {G G' : Option GlobalLookup} (h : ConstValue.eval e G' = .ok v)
    (hG : ∀ j c, G'.bind (· j) = some c → G.bind (· j) = some c) : ConstValue.eval e G = .ok v := by
  obtain ⟨code, is, rest, he, hcode, hrun⟩ := runs_of_eval h
  exact eval_of_runs he hcode (ConstInstr.run_mono hG hrun)

/-- A well-typed expression whose value is a number evaluates the same with any lookup that
agrees on the globals holding numbers. -/
theorem Evaluates.restrict (h : Evaluates L e v) (hv : v.type.isNumeric = true)
    (hL : ∀ j c, L j = some c → c.type.isNumeric = true → L' j = some c) : Evaluates L' e v := by
  obtain ⟨code, is, rest, he, hcode, hrun⟩ := h
  refine ⟨code, is, rest, he, hcode, ConstInstr.run_typed_restrict hL hrun fun c hc => ?_⟩
  rw [List.mem_singleton.mp hc]
  exact hv

theorem Evaluates.clean (h : Evaluates L e v) (hL : ∀ j c, L j = some c → c.Clean) : v.Clean := by
  obtain ⟨code, is, rest, -, -, hrun⟩ := h
  exact ConstInstr.run_typed_clean hL hrun (fun c hc => by cases hc) v List.mem_cons_self

end ConstExpr

/-! ## The globals -/

namespace Module.GlobalValues

variable {m : Module} {gs : List ConstValue}

/-- Every global holding a number is not null. -/
theorem clean (h : m.GlobalValues gs) : ∀ c ∈ gs, c.Clean := by
  -- each value reads only the values before it
  suffices hpre : ∀ n ≤ gs.length, ∀ c ∈ gs.take n, c.Clean by
    simpa using hpre gs.length le_rfl
  intro n
  induction n with
  | zero => simp
  | succ n ih =>
    intro hn c hc
    rw [List.take_add_one, List.getElem?_eq_getElem (by omega), Option.toList_some] at hc
    rcases List.mem_append.mp hc with hc | hc
    · exact ih (by omega) c hc
    · rw [List.mem_singleton.mp hc]
      refine ((h.value n (by omega) (by rw [← h.length]; omega)).1).clean fun j d hd => ?_
      exact ih (by omega) d (List.mem_of_getElem? hd)

end Module.GlobalValues

/-! ## Folds and the overlay of what they write -/

namespace Folds

variable {α σ β : Type} {step : α → σ → σ → Prop}

/-- What every step keeps, the steps keep. -/
theorem keep (f : σ → β) (hstep : ∀ a s s', step a s s' → f s' = f s) :
    ∀ {xs : List α} {s s' : σ}, Folds step xs s s' → f s' = f s
  | _, _, _, .nil _ => rfl
  | _, _, _, .cons h hs => (keep f hstep hs).trans (hstep _ _ _ h)

end Folds

theorem ElemWrite.globals {m : Module} {e : Element} {inst inst' : Instance} (h : ElemWrite m e inst inst') :
    inst'.globals = inst.globals := by
  cases h <;> rfl

theorem ElemWrite.memories {m : Module} {e : Element} {inst inst' : Instance} (h : ElemWrite m e inst inst') :
    inst'.memories = inst.memories := by
  cases h <;> rfl

theorem ElemWrite.tables_length {m : Module} {e : Element} {inst inst' : Instance}
    (h : ElemWrite m e inst inst') : inst'.tables.length = inst.tables.length := by
  cases h <;> simp

theorem DataWrite.globals {d : DataSegment} {inst inst' : Instance} (h : DataWrite d inst inst') :
    inst'.globals = inst.globals := by
  cases h <;> rfl

theorem DataWrite.tables {d : DataSegment} {inst inst' : Instance} (h : DataWrite d inst inst') :
    inst'.tables = inst.tables := by
  cases h <;> rfl

theorem DataWrite.memories_length {d : DataSegment} {inst inst' : Instance} (h : DataWrite d inst inst') :
    inst'.memories.length = inst.memories.length := by
  cases h <;> simp

/-- Placing items mapped through `f` maps the list they are placed into. -/
theorem place_map {α β : Type} (f : α → β) (l : List α) (p : Placed α) :
    place (l.map f) ⟨p.offset, p.items.map f⟩ = (place l p).map f := by
  simp [place, Placed.stop, List.map_take, List.map_drop]

/-- The slots of table `t`, seen through `f`, after the element segments `es`: the overlay over
what they held of the placements `pl` gives the active segments of `t`, in order, when each
segment's placement is its offset and its references seen through `f`. -/
theorem Folds.table_overlay {β : Type} (f : Option UInt32 → β) {m : Module}
    {pl : Element → Option (Placed β)} {t n : Nat} :
    ∀ {es : List Element} {inst inst' : Instance} {p : List (Placed β)},
      Folds (ElemWrite m) es inst inst' →
      (∀ e ∈ es, e.isActive = true → e.tableIdx.toNat = t → ∀ off o tt rs, e.offset = some off →
        ConstExpr.Offset (lookupIn inst.globals) off o → m.tables[t]? = some tt →
        e.Refs (lookupIn inst.globals) tt.elemType rs → pl e = some ⟨o, rs.map f⟩) →
      inst.tables[t]?.map (·.map f) = some ((List.range n).map (overlay (f none) p)) →
      inst'.tables[t]?.map (·.map f) = some ((List.range n).map (overlay (f none)
        (p ++ (es.filter fun e => e.isActive && e.tableIdx.toNat == t).filterMap pl)))
  | _, _, _, p, .nil _, _, hstart => by simpa using hstart
  | e :: es, inst, inst', p, .cons hstep hrest, hpl, hstart => by
    have hglobals := hstep.globals
    have hpl' : ∀ e' ∈ es, _ := fun e' he' => hglobals ▸ hpl e' (List.mem_cons_of_mem e he')
    cases hstep with
    | skip hact =>
      simpa [List.filter_cons, hact] using Folds.table_overlay f hrest hpl' hstart
    | @write off o tt rs slots hact hoff ho htt hrs hslots hfit =>
      by_cases ht : e.tableIdx.toNat = t
      · -- table `t` is written: one more placement
        subst ht
        have hp := hpl e List.mem_cons_self hact rfl off o tt rs hoff ho htt hrs
        rw [hslots, Option.map_some, Option.some.injEq] at hstart
        have hlen : slots.length = n := by simpa using congrArg List.length hstart
        have hnext := Folds.table_overlay f hrest hpl' (p := p ++ [⟨o, rs.map f⟩]) (by
          rw [List.getElem?_set_self (List.getElem?_eq_some_iff.mp hslots).1, Option.map_some,
            ← place_map, hstart]
          exact congrArg some (place_map_overlay (by simp [Placed.stop]; omega)))
        simpa [List.filter_cons, hact, hp] using hnext
      · -- another table
        have hsame : (inst.tables.set e.tableIdx.toNat (place slots ⟨o, rs⟩))[t]? = inst.tables[t]? := by
          rw [List.getElem?_set_ne ht]
        have hnext := Folds.table_overlay f hrest hpl' (p := p) (by rw [hsame]; exact hstart)
        simpa [List.filter_cons, hact, ht] using hnext

/-- The bytes of memory `j` after the data segments `ds`: the overlay over what it held of each
active segment of `j`, in order, its contents placed from the offset `off` gives it. -/
theorem Folds.memory_overlay {off : DataSegment → Nat} {j n : Nat} :
    ∀ {ds : List DataSegment} {inst inst' : Instance} {p : List (Placed UInt8)},
      Folds DataWrite ds inst inst' →
      (∀ d ∈ ds, d.isActive = true → d.memIdx.toNat = j → ∀ e o, d.offset = some e →
        ConstExpr.Offset (lookupIn inst.globals) e o → o = off d) →
      inst.memories[j]? = some ((List.range n).map (overlay 0 p)) →
      inst'.memories[j]? = some ((List.range n).map (overlay 0
        (p ++ (ds.filter fun d => d.isActive && d.memIdx.toNat == j).map
          fun d => ⟨off d, d.init.data.toList⟩)))
  | _, _, _, p, .nil _, _, hstart => by simpa using hstart
  | d :: ds, inst, inst', p, .cons hstep hrest, hoffs, hstart => by
    have hglobals := hstep.globals
    have hoffs' : ∀ d' ∈ ds, _ := fun d' hd' => hglobals ▸ hoffs d' (List.mem_cons_of_mem d hd')
    cases hstep with
    | skip hact =>
      simpa [List.filter_cons, hact] using Folds.memory_overlay hrest hoffs' hstart
    | @write e o bytes hact he ho hbytes hfit =>
      by_cases hj : d.memIdx.toNat = j
      · -- memory `j` is written: one more placement
        subst hj
        have ho' := hoffs d List.mem_cons_self hact rfl e o he ho
        rw [hbytes, Option.some.injEq] at hstart
        have hlen : bytes.length = n := by simpa using congrArg List.length hstart
        have hnext := Folds.memory_overlay hrest hoffs'
          (p := p ++ [⟨off d, d.init.data.toList⟩]) (by
            rw [List.getElem?_set_self (List.getElem?_eq_some_iff.mp hbytes).1, hstart, ← ho']
            exact congrArg some (place_map_overlay (by simp [Placed.stop]; omega)))
        simpa [List.filter_cons, hact] using hnext
      · -- another memory
        have hsame : (inst.memories.set d.memIdx.toNat (place bytes ⟨o, d.init.data.toList⟩))[j]? =
            inst.memories[j]? := by
          rw [List.getElem?_set_ne hj]
        have hnext := Folds.memory_overlay hrest hoffs' (p := p) (by rw [hsame]; exact hstart)
        simpa [List.filter_cons, hact, hj] using hnext

/-! ## What the writes took -/

/-- Each reference of a segment is one of its items. -/
theorem Element.Refs.length {G : GlobalLookup} {e : Element} {t : ValType} {rs : List (Option UInt32)}
    (h : e.Refs G t rs) : rs.length = e.count := by
  unfold Element.Refs at h
  unfold Element.count
  split at h
  · rw [h.2, List.length_map]
  · exact h.length_eq.symm

/-- Every active data segment among the writes had an offset, evaluated over the globals they
start from, and a memory. -/
theorem Folds.data_active : ∀ {ds : List DataSegment} {inst inst' : Instance},
    Folds DataWrite ds inst inst' → ∀ d ∈ ds, d.isActive = true →
      ∃ e o, d.offset = some e ∧ ConstExpr.Offset (lookupIn inst.globals) e o ∧
        d.memIdx.toNat < inst.memories.length
  | _, _, _, .nil _, _, hd, _ => by cases hd
  | _, _, _, .cons hstep hrest, d, hd, hact => by
    rcases List.mem_cons.mp hd with rfl | hd
    · cases hstep with
      | skip hpass => exact absurd (hact.symm.trans hpass) Bool.noConfusion
      | @write e o bytes _ he ho hbytes _ => exact ⟨e, o, he, ho, (List.getElem?_eq_some_iff.mp hbytes).1⟩
    · obtain ⟨e, o, he, ho, hidx⟩ := Folds.data_active hrest d hd hact
      rw [hstep.globals] at ho
      rw [hstep.memories_length] at hidx
      exact ⟨e, o, he, ho, hidx⟩

/-- Every active element segment among the writes had an offset and references, evaluated over
the globals they start from, and a table. -/
theorem Folds.elem_active {m : Module} : ∀ {es : List Element} {inst inst' : Instance},
    Folds (ElemWrite m) es inst inst' → ∀ e ∈ es, e.isActive = true →
      ∃ off o tt rs, e.offset = some off ∧ ConstExpr.Offset (lookupIn inst.globals) off o ∧
        m.tables[e.tableIdx.toNat]? = some tt ∧ e.Refs (lookupIn inst.globals) tt.elemType rs
  | _, _, _, .nil _, _, he, _ => by cases he
  | _, _, _, .cons hstep hrest, e, he, hact => by
    rcases List.mem_cons.mp he with rfl | he
    · cases hstep with
      | skip hpass => exact absurd (hact.symm.trans hpass) Bool.noConfusion
      | @write off o tt rs _ _ hoff ho htt hrs _ _ => exact ⟨off, o, tt, rs, hoff, ho, htt, hrs⟩
    · have hglobals := hstep.globals
      obtain ⟨off, o, tt, rs, hoff, ho, htt, hrs⟩ := Folds.elem_active hrest e he hact
      rw [hglobals] at ho hrs
      exact ⟨off, o, tt, rs, hoff, ho, htt, hrs⟩

end WasmImage.Wasm
