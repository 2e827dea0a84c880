import WasmImage.Hook
import WasmImage.Proofs.IndexSpaces
import WasmImage.Proofs.Rewrite

/-!
# Finding the hooks of a module

A hook is imported when the first import named `weval` and the hook's name is a function import
whose function has the hook's type (`View.ImportsHook`); a later import of the same name does not
count. Finding the hooks gives each hook of the vocabulary, in order, the function it is imported
as, or `invalidFunc`. In a view of a parsed module the functions found are distinct and none is
`invalidFunc`: each function import has the index of the function imports before it, and there
are fewer than `2 ^ 32` imports. So a function names at most one hook, the one whose slot it
fills, and the hooks found are those imported, in vocabulary order (`find_hooks`).
-/

namespace WasmImage

open Wasm

namespace View

/-- Hook `h` is imported as function `f`: the first import named `weval`.`h.name` is a
function import of index `f`, and function `f` has the hook's type. -/
def ImportsHook (v : View) (h : Hook) (f : UInt32) : Prop :=
  ∃ pre i post, v.imports.toList = pre ++ i :: post ∧
    (∀ j ∈ pre, j.module = hookNamespace → j.name ≠ h.name) ∧
    i.module = hookNamespace ∧ i.name = h.name ∧ i.kind = .func ∧ i.index = f ∧
    v.funcType? f = some h.type

theorem importedFunc?_eq_some {v : View} {h : Hook} {f : UInt32} :
    v.importedFunc? hookNamespace h.name h.type = some f ↔ v.ImportsHook h f := by
  unfold importedFunc?
  rw [← Array.find?_toList]
  constructor
  · intro hf
    split at hf
    · rename_i i hi
      obtain ⟨hmatch, pre, post, hsplit, hpre⟩ := List.find?_eq_some_iff_append.mp hi
      simp only [Bool.and_eq_true, beq_iff_eq] at hmatch
      by_cases hk : i.kind = .func
      · simp only [hk, beq_self_eq_true, if_true, funcOfType?] at hf
        split at hf
        · rename_i htype
          cases hf
          refine ⟨pre, i, post, hsplit, fun j hj => ?_, hmatch.1, hmatch.2, hk, rfl, by simpa using htype⟩
          simpa [← imp_iff_not_or] using hpre j hj
        · cases hf
      · simp [hk] at hf
    · cases hf
  · rintro ⟨pre, i, post, hsplit, hpre, hmod, hname, hk, rfl, htype⟩
    have hfind : (v.imports.toList.find? fun i => i.module == hookNamespace && i.name == h.name) =
        some i := by
      refine List.find?_eq_some_iff_append.mpr ⟨by simp [hmod, hname], pre, post, hsplit, fun j hj => ?_⟩
      simpa [← imp_iff_not_or] using hpre j hj
    simp [hfind, hk, funcOfType?, htype]

/-! ## Function imports of a parsed module -/

theorem parse_decode {bytes : ByteArray} {v : View} (h : parse bytes = .ok v) :
    ∃ raw, Module.decode bytes = .ok raw ∧ ofModule raw = .ok v := by
  unfold parse at h
  split at h
  · rename_i raw hraw
    exact ⟨raw, hraw, h⟩
  · cases h

/-- In a view of a parsed module there are fewer than `2 ^ 32` imports, and a function import has
as index the number of function imports before it. -/
theorem funcImport_index {bytes : ByteArray} {v : View} (h : parse bytes = .ok v) :
    v.imports.toList.length < 2 ^ 32 ∧
      ∀ j (hj : j < v.imports.toList.length), v.imports.toList[j].kind = .func →
        v.imports.toList[j].index.toNat = (v.imports.toList.take j).countP (·.kind == .func) := by
  obtain ⟨raw, hdec, hres⟩ := parse_decode h
  have himports := (index_spaces_agree hres).2.2.2.2
  have hsize := (Module.wf_of_decode hdec).memories_lt
  have hlist : v.imports.toList = raw.imports.toList.mapIdx fun j imp => ⟨imp.module, imp.name,
      ((raw.imports.toList.take j).countP (·.desc.kind == imp.desc.kind)).toUInt32, imp.desc.kind⟩ := by
    rw [himports, Array.toList_mapIdx]
  -- the view's imports have the raw imports' kinds
  have hkinds : v.imports.toList.map (·.kind) = raw.imports.toList.map (·.desc.kind) := by
    rw [hlist]
    apply List.ext_getElem (by simp)
    intro k h₁ h₂
    simp
  refine ⟨by rw [hlist, List.length_mapIdx, Array.length_toList]; omega, fun j hj hk => ?_⟩
  have hj' : j < raw.imports.toList.length := by rw [hlist, List.length_mapIdx] at hj; exact hj
  have hcount : (v.imports.toList.take j).countP (·.kind == .func) =
      (raw.imports.toList.take j).countP (·.desc.kind == .func) := by
    have := congrArg (fun l => (l.take j).countP (· == ExternKind.func)) hkinds
    simpa [← List.map_take, List.countP_map, Function.comp_def] using this
  have hentry := List.getElem_mapIdx (l := raw.imports.toList) (h := by rw [← hlist]; exact hj)
  simp only [← hlist] at hentry
  rw [hentry] at hk ⊢
  simp only at hk ⊢
  rw [hcount, ← hk]
  apply Writer.toNat_toUInt32_of_lt
  have := (raw.imports.toList.take j).countP_le_length (p := (·.desc.kind == raw.imports.toList[j].desc.kind))
  simp only [List.length_take, Array.length_toList] at this hj'
  omega

/-- A later function import has a larger index. -/
theorem funcImport_index_lt {bytes : ByteArray} {v : View} (h : parse bytes = .ok v) {j₁ j₂ : Nat}
    (hlt : j₁ < j₂) (hj₂ : j₂ < v.imports.toList.length)
    (hk₁ : v.imports.toList[j₁].kind = .func) (hk₂ : v.imports.toList[j₂].kind = .func) :
    v.imports.toList[j₁].index.toNat < v.imports.toList[j₂].index.toNat := by
  obtain ⟨-, hindex⟩ := funcImport_index h
  rw [hindex j₁ (by omega) hk₁, hindex j₂ hj₂ hk₂]
  -- the import at `j₁` is counted before `j₂` and not before itself
  have hstep : (v.imports.toList.take (j₁ + 1)).countP (·.kind == .func) =
      (v.imports.toList.take j₁).countP (·.kind == .func) + 1 := by
    rw [List.take_add_one, List.getElem?_eq_getElem (by omega), List.countP_append]
    simpa using hk₁
  have hmono := (List.take_sublist_take_left (l := v.imports.toList) (show j₁ + 1 ≤ j₂ by omega)).countP_le
    (p := (·.kind == .func))
  omega

/-- The import after `pre` in a split of the imports. -/
theorem getElem_split {L pre post : List ImportRef} {i : ImportRef} (h : L = pre ++ i :: post) :
    ∃ hj : pre.length < L.length, L[pre.length] = i := by
  subst h
  exact ⟨by simp, by simp⟩

variable {bytes : ByteArray} {v : View}

/-- No hook of a parsed module is imported as `invalidFunc`. -/
theorem ImportsHook.ne_invalid (hv : parse bytes = .ok v) {a : Hook} {f : UInt32}
    (h : v.ImportsHook a f) : f ≠ invalidFunc := by
  obtain ⟨pre, i, post, hsplit, -, -, -, hk, rfl, -⟩ := h
  obtain ⟨hlen, hindex⟩ := funcImport_index hv
  obtain ⟨hj, hi⟩ := getElem_split hsplit
  have hcount := hindex _ hj (hi ▸ hk)
  rw [hi] at hcount
  have hle := (v.imports.toList.take pre.length).countP_le_length (p := (·.kind == .func))
  simp only [List.length_take] at hle
  intro hinv
  have : i.index.toNat = 2 ^ 32 - 1 := by rw [hinv]; rfl
  omega

/-- In a parsed module two hooks imported as the same function are the same hook: the function
is the index of one import, which has one name, and the function has one type. -/
theorem ImportsHook.unique_hook (hv : parse bytes = .ok v) {a b : Hook} {f : UInt32}
    (ha : v.ImportsHook a f) (hb : v.ImportsHook b f) : a = b := by
  obtain ⟨pre₁, i₁, post₁, hsplit₁, -, -, hname₁, hk₁, hidx₁, htype₁⟩ := ha
  obtain ⟨pre₂, i₂, post₂, hsplit₂, -, -, hname₂, hk₂, hidx₂, htype₂⟩ := hb
  obtain ⟨hj₁, hi₁⟩ := getElem_split hsplit₁
  obtain ⟨hj₂, hi₂⟩ := getElem_split hsplit₂
  -- the two imports stand at one place: an import after another has a larger index
  have hsame : pre₁.length = pre₂.length := by
    have hidx : i₁.index.toNat = i₂.index.toNat := by rw [hidx₁, hidx₂]
    rcases Nat.lt_trichotomy pre₁.length pre₂.length with hlt | heq | hgt
    · have := funcImport_index_lt hv hlt hj₂ (hi₁ ▸ hk₁) (hi₂ ▸ hk₂)
      rw [hi₁, hi₂] at this
      omega
    · exact heq
    · have := funcImport_index_lt hv hgt hj₁ (hi₂ ▸ hk₂) (hi₁ ▸ hk₁)
      rw [hi₁, hi₂] at this
      omega
  have hi : i₁ = i₂ := by
    rw [← hi₁, ← hi₂]
    simp only [hsame]
  have htype : a.type = b.type := by
    rw [htype₁] at htype₂
    exact Option.some.inj htype₂
  cases a
  cases b
  simp only [Hook.mk.injEq]
  exact ⟨hname₁.symm.trans (hi ▸ hname₂), htype⟩

/-- Hook `h` is imported as some function, which can be decided by looking it up. -/
instance (v : View) (h : Hook) : Decidable (∃ f, v.ImportsHook h f) :=
  decidable_of_iff ((v.importedFunc? hookNamespace h.name h.type).isSome = true) <| by
    simp [Option.isSome_iff_exists, importedFunc?_eq_some]

end View

namespace Hooks

open View

variable {bytes : ByteArray} {v : View}

/-- The slot of hook `h`: the function it is imported as, or `invalidFunc`. -/
def slotOf (v : View) (h : Hook) : UInt32 :=
  (v.importedFunc? hookNamespace h.name h.type).getD invalidFunc

/-- A map whose steps log but return what `g` gives returns the map of `g`, from every log. -/
theorem mapM_run_fst {α β : Type} (f : α → StateM (Array LogEntry) β) (g : α → β)
    (hf : ∀ a log, ((f a).run log).1 = g a) :
    ∀ (xs : List α) (log : Array LogEntry), ((xs.mapM f).run log).1 = xs.map g
  | [], _ => rfl
  | a :: xs, log => by
    simp only [List.mapM_cons, List.map_cons, StateT.run_bind, StateT.run_pure]
    rw [← hf a log, ← mapM_run_fst f g hf xs ((f a).run log).2]
    rfl

/-- Finding the hooks gives every hook of the vocabulary its slot, in order, whatever it logs. -/
theorem find_slots (v : View) (log : Array LogEntry) :
    ((find v).run log).1.slots = Hook.vocabulary.map fun h => (h, slotOf v h) := by
  unfold find
  -- the vocabulary is a fixed list, which nothing here needs to unfold
  generalize Hook.vocabulary = hooks
  show ((hooks.mapM _ : StateM (Array LogEntry) (List (Hook × UInt32))).run log).1 = _
  refine mapM_run_fst _ _ (fun h log => ?_) _ log
  unfold slotOf
  split <;> rename_i hf <;> rw [hf] <;> rfl

/-- In a parsed module the slot of a hook is the function it is imported as, which is never
`invalidFunc`, and `invalidFunc` when it is not imported. -/
theorem importsHook_iff_slotOf (hv : parse bytes = .ok v) (h : Hook) (f : UInt32) :
    v.ImportsHook h f ↔ slotOf v h = f ∧ f ≠ invalidFunc := by
  unfold slotOf
  cases hi : v.importedFunc? hookNamespace h.name h.type with
  | none =>
    simp only [Option.getD_none]
    constructor
    · intro himp
      rw [importedFunc?_eq_some.mpr himp] at hi
      cases hi
    · rintro ⟨rfl, hne⟩
      exact absurd rfl hne
  | some g =>
    have hg := importedFunc?_eq_some.mp hi
    simp only [Option.getD_some]
    constructor
    · intro himp
      rw [importedFunc?_eq_some.mpr himp, Option.some.injEq] at hi
      exact ⟨hi.symm, hi ▸ hg.ne_invalid hv⟩
    · rintro ⟨rfl, -⟩
      exact hg

theorem vocabulary_nodup : Hook.vocabulary.Nodup := by decide

theorem vocabulary_names_nodup : (Hook.vocabulary.map (·.name)).Nodup := by decide

/-- A hook found, with its function, is a hook of the vocabulary imported as that function. -/
theorem mem_found (hv : parse bytes = .ok v) (log : Array LogEntry) {p : Hook × UInt32} :
    p ∈ ((find v).run log).1.found ↔ p.1 ∈ Hook.vocabulary ∧ v.ImportsHook p.1 p.2 := by
  obtain ⟨h, f⟩ := p
  simp only [found, find_slots, List.mem_filter, List.mem_map, Prod.mk.injEq, bne_iff_ne, ne_eq,
    importsHook_iff_slotOf hv]
  constructor
  · rintro ⟨⟨h', hh', rfl, rfl⟩, hne⟩
    exact ⟨hh', rfl, hne⟩
  · rintro ⟨hh, rfl, hne⟩
    exact ⟨⟨h, hh, rfl, rfl⟩, hne⟩

/-- The functions found are distinct: two hooks found with one function are one hook. -/
theorem found_funcs_nodup (hv : parse bytes = .ok v) (log : Array LogEntry) :
    (((find v).run log).1.found.map (·.2)).Nodup := by
  refine List.Nodup.map_on (fun p hp q hq hpq => ?_) ?_
  · obtain ⟨-, hp'⟩ := (mem_found hv log).mp hp
    obtain ⟨-, hq'⟩ := (mem_found hv log).mp hq
    rw [hpq] at hp'
    exact Prod.ext (hp'.unique_hook hv hq') hpq
  · rw [found, find_slots]
    exact (vocabulary_nodup.map fun a b hab => (Prod.mk.inj hab).1).filter _

/-- A function names a hook exactly when it was found for that hook. -/
theorem name?_eq_some (hv : parse bytes = .ok v) (log : Array LogEntry) {f : UInt32} {n : String} :
    ((find v).run log).1.name? f = some n ↔ ∃ h, (h, f) ∈ ((find v).run log).1.found ∧ h.name = n := by
  have hfound : ∀ {q : Hook × UInt32}, q ∈ ((find v).run log).1.slots → q.2 = f → f ≠ invalidFunc →
      q ∈ ((find v).run log).1.found := fun hq hqf hf => by
    simp only [found, List.mem_filter, bne_iff_ne, ne_eq]
    exact ⟨hq, hqf ▸ hf⟩
  unfold name?
  split
  · -- `invalidFunc` names nothing, and no hook is found with it
    rename_i hinv
    have hinv : f = invalidFunc := by simpa using hinv
    simp only [reduceCtorEq, false_iff, not_exists, not_and]
    intro h hmem
    have := (mem_found hv log).mp hmem
    exact absurd hinv (this.2.ne_invalid hv)
  rename_i hvalid
  have hvalid : f ≠ invalidFunc := by simpa using hvalid
  constructor
  · intro hname
    obtain ⟨q, hq, rfl⟩ := Option.map_eq_some_iff.mp hname
    have hqf : q.2 = f := by simpa using List.find?_some hq
    exact ⟨q.1, hqf ▸ hfound (List.mem_of_find?_eq_some hq) hqf hvalid, rfl⟩
  · rintro ⟨h, hmem, rfl⟩
    have hslot : (h, f) ∈ ((find v).run log).1.slots := List.mem_of_mem_filter hmem
    obtain ⟨q, hq⟩ : ∃ q, ((find v).run log).1.slots.find? (·.2 == f) = some q :=
      Option.isSome_iff_exists.mp (List.find?_isSome.mpr ⟨_, hslot, by simp⟩)
    have hqf : q.2 = f := by simpa using List.find?_some hq
    -- the functions found are distinct, so the first slot holding `f` is the one of `h`
    have hqh : q = (h, f) := List.inj_on_of_nodup_map (found_funcs_nodup hv log)
      (hfound (List.mem_of_find?_eq_some hq) hqf hvalid) hmem hqf
    rw [hq, hqh]
    rfl

/-- The hooks of a parsed module, whatever was logged before: one slot per hook of the vocabulary,
in order, holding the function the hook is imported as, or `invalidFunc` when it is not imported;
the functions found are distinct; a function names a hook exactly when it fills that hook's slot,
and any other function, `invalidFunc` included, names none; the hooks found are those imported,
in vocabulary order, each with its function, and they are counted. -/
theorem find_hooks (hv : parse bytes = .ok v) (log : Array LogEntry) :
    let hs := ((find v).run log).1
    hs.slots.map (·.1) = Hook.vocabulary ∧
    (∀ p ∈ hs.slots, ∀ f, v.ImportsHook p.1 f ↔ p.2 = f ∧ f ≠ invalidFunc) ∧
    (hs.found.map (·.2)).Nodup ∧
    (∀ h ∈ Hook.vocabulary, ∀ f, hs.name? f = some h.name ↔ (h, f) ∈ hs.found) ∧
    (∀ f, (∀ h, (h, f) ∉ hs.found) → hs.name? f = none) ∧
    hs.found.map (·.1) = Hook.vocabulary.filter (fun h => ∃ f, v.ImportsHook h f) ∧
    (∀ p ∈ hs.found, v.ImportsHook p.1 p.2) ∧
    hs.count = (Hook.vocabulary.filter fun h => ∃ f, v.ImportsHook h f).length := by
  intro hs
  -- the hooks found, in order: those whose slot holds a function
  have hid : ((fun p : Hook × UInt32 => p.1) ∘ fun h => (h, slotOf v h)) = id := rfl
  have hhooks : hs.found.map (·.1) = Hook.vocabulary.filter (fun h => ∃ f, v.ImportsHook h f) := by
    simp only [hs, found, find_slots, List.filter_map, List.map_map, hid, List.map_id]
    refine List.filter_congr fun h _ => Bool.eq_iff_iff.mpr ?_
    simp only [Function.comp_apply, bne_iff_ne, ne_eq, decide_eq_true_eq, importsHook_iff_slotOf hv]
    exact ⟨fun hne => ⟨_, rfl, hne⟩, fun ⟨f, hf, hne⟩ => hf ▸ hne⟩
  refine ⟨?_, fun p hp f => ?_, found_funcs_nodup hv log, fun h hh f => ⟨fun hname => ?_,
    fun hmem => (name?_eq_some hv log).mpr ⟨h, hmem, rfl⟩⟩, fun f hnone => ?_, hhooks,
    fun p hp => ((mem_found hv log).mp hp).2, ?_⟩
  · simp only [hs, find_slots, List.map_map, hid, List.map_id]
  · obtain ⟨h, -, rfl⟩ := List.mem_map.mp (find_slots v log ▸ hp)
    exact importsHook_iff_slotOf hv h f
  · -- another hook found with `f` would share the name, and the vocabulary names differ
    obtain ⟨h', hmem, hnames⟩ := (name?_eq_some hv log).mp hname
    have hh' : h' ∈ Hook.vocabulary := ((mem_found hv log).mp hmem).1
    have heq : h' = h := List.inj_on_of_nodup_map vocabulary_names_nodup hh' hh hnames
    rwa [heq] at hmem
  · cases hname : hs.name? f with
    | none => rfl
    | some n =>
      obtain ⟨h, hmem, -⟩ := (name?_eq_some hv log).mp hname
      exact absurd hmem (hnone h)
  · rw [count, ← hhooks, List.length_map]

/-- Types `[i64] → [i64]` and `[i32] → []`, and three imports from `weval`: `read.reg` of the
second type, `read.reg` of the first, and `push.context` of the second. -/
def shadowedHookBytes : ByteArray :=
  ⟨#[0x00, 0x61, 0x73, 0x6d, 0x01, 0x00, 0x00, 0x00,
    0x01, 0x0a, 0x02, 0x60, 0x01, 0x7e, 0x01, 0x7e, 0x60, 0x01, 0x7f, 0x00,
    0x02, 0x38, 0x03,
    0x05, 0x77, 0x65, 0x76, 0x61, 0x6c, 0x08, 0x72, 0x65, 0x61, 0x64, 0x2e, 0x72, 0x65, 0x67,
    0x00, 0x01,
    0x05, 0x77, 0x65, 0x76, 0x61, 0x6c, 0x08, 0x72, 0x65, 0x61, 0x64, 0x2e, 0x72, 0x65, 0x67,
    0x00, 0x00,
    0x05, 0x77, 0x65, 0x76, 0x61, 0x6c, 0x0c, 0x70, 0x75, 0x73, 0x68, 0x2e, 0x63, 0x6f, 0x6e,
    0x74, 0x65, 0x78, 0x74, 0x00, 0x01]⟩

/-- The module those bytes decode to. -/
def shadowedHookModule : Module where
  types := #[⟨[.i64], [.i64]⟩, ⟨[.i32], []⟩]
  imports := #[⟨hookNamespace, "read.reg", .func 1⟩, ⟨hookNamespace, "read.reg", .func 0⟩,
    ⟨hookNamespace, "push.context", .func 1⟩]

/-- Its view: the three imports are functions 0, 1 and 2. -/
def shadowedHookView : View where
  raw := shadowedHookModule
  signatures := shadowedHookModule.types
  funcs := #[⟨1, true⟩, ⟨0, true⟩, ⟨1, true⟩]
  imports := #[⟨hookNamespace, "read.reg", 0, .func⟩, ⟨hookNamespace, "read.reg", 1, .func⟩,
    ⟨hookNamespace, "push.context", 2, .func⟩]

-- decoding the names is deep enough to need a larger recursion limit
set_option maxRecDepth 100000 in
/-- The first `read.reg` has the wrong type and hides the second, so only `push.context` is
found, as function 2. -/
theorem find_hooks_shadowed_import :
    parse shadowedHookBytes = .ok shadowedHookView ∧
      ((find shadowedHookView).run #[]).1.found = [(⟨"push.context", ⟨[.i32], []⟩⟩, 2)] ∧
      let hs := ((find shadowedHookView).run #[]).1
      hs.slots.map (·.1) = Hook.vocabulary ∧
      (∀ p ∈ hs.slots, ∀ f, shadowedHookView.ImportsHook p.1 f ↔ p.2 = f ∧ f ≠ invalidFunc) ∧
      (hs.found.map (·.2)).Nodup ∧
      (∀ h ∈ Hook.vocabulary, ∀ f, hs.name? f = some h.name ↔ (h, f) ∈ hs.found) ∧
      (∀ f, (∀ h, (h, f) ∉ hs.found) → hs.name? f = none) ∧
      hs.found.map (·.1) = Hook.vocabulary.filter (fun h => ∃ f, shadowedHookView.ImportsHook h f) ∧
      (∀ p ∈ hs.found, shadowedHookView.ImportsHook p.1 p.2) ∧
      hs.count = (Hook.vocabulary.filter fun h => ∃ f, shadowedHookView.ImportsHook h f).length := by
  have hdecode : Module.decode shadowedHookBytes = .ok shadowedHookModule := by cbv
  have hview : ofModule shadowedHookModule = .ok shadowedHookView := by cbv
  have hv : parse shadowedHookBytes = .ok shadowedHookView := by
    rw [parse, hdecode]
    exact hview
  have hfound : ((find shadowedHookView).run #[]).1.found = [(⟨"push.context", ⟨[.i32], []⟩⟩, 2)] := by
    rw [found, find_slots]
    decide
  exact ⟨hv, hfound, find_hooks hv #[]⟩

end Hooks

end WasmImage
