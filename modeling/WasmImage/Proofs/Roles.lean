import WasmImage.Proofs.Build

/-!
# Choosing the roles of an image

Building an image names a global as the stack pointer, a memory as the main heap and a table as
the main table. Each role goes to the last id an option gives it; else, when an option asks the
exports, to the index of the first export of the role's conventional name, if that export is of
the role's kind; else to the first of its kind, if there is one (`namedRole`, `chosenRole`). An id
named by an option or an export must exist, a global of the view or a memory or table of the
image: building fails after its memories exactly when one does not (`build_roles`). Options are
applied in order, but where the option that asks the exports stands does not matter.
-/

namespace WasmImage

open Logged

namespace BuildOption

/-- The global an option names as the stack pointer. -/
def stackPointer? : BuildOption → Option UInt32
  | .stackPointer g => some g
  | _ => none

/-- The memory an option names as the main heap. -/
def mainHeap? : BuildOption → Option UInt32
  | .mainHeap m => some m
  | _ => none

/-- The table an option names as the main table. -/
def mainTable? : BuildOption → Option UInt32
  | .mainTable t => some t
  | _ => none

end BuildOption

namespace Image

/-- The id that options and exports name for a role: the last of the ids `pick` reads from the
options, else, when an option asks the exports, the id `exported` its export names. -/
def namedRole (pick : BuildOption → Option UInt32) (exported : Option UInt32)
    (opts : List BuildOption) : Option UInt32 :=
  (opts.filterMap pick).getLast? <|> if .rolesFromExports ∈ opts then exported else none

/-- The id a role gets among `count` candidates: the one named, else the first. -/
def chosenRole (named : Option UInt32) (count : Nat) : Option UInt32 :=
  named <|> if 0 < count then some 0 else none

/-- The id named for a role is not among its `count` candidates. -/
def MissingRole (named : Option UInt32) (count : Nat) : Prop :=
  ∃ g, named = some g ∧ count ≤ g.toNat

instance (named : Option UInt32) (count : Nat) : Decidable (MissingRole named count) :=
  decidable_of_iff (named.any fun g => decide (count ≤ g.toNat))
    (by cases named <;> simp [MissingRole])

/-! ## Options applied in order -/

/-- Applying options in order: each role has the last id an option gives it, over the one it had,
and the exports name roles once an option asks. -/
theorem foldl_apply (c : RoleChoice) (opts : List BuildOption) :
    opts.foldl RoleChoice.apply c =
      { fromExports := c.fromExports || decide (.rolesFromExports ∈ opts)
        given :=
          { stackPointer := (opts.filterMap BuildOption.stackPointer?).getLast? <|> c.given.stackPointer
            mainHeap := (opts.filterMap BuildOption.mainHeap?).getLast? <|> c.given.mainHeap
            mainTable := (opts.filterMap BuildOption.mainTable?).getLast? <|> c.given.mainTable } } := by
  induction opts using List.reverseRecOn with
  | nil => simp
  | append_singleton opts o ih =>
    rw [List.foldl_append, ih]
    cases o <;> simp [RoleChoice.apply, BuildOption.stackPointer?, BuildOption.mainHeap?,
      BuildOption.mainTable?]

theorem ofOptions_eq (opts : List BuildOption) :
    RoleChoice.ofOptions opts =
      { fromExports := decide (.rolesFromExports ∈ opts)
        given :=
          { stackPointer := (opts.filterMap BuildOption.stackPointer?).getLast?
            mainHeap := (opts.filterMap BuildOption.mainHeap?).getLast?
            mainTable := (opts.filterMap BuildOption.mainTable?).getLast? } } := by
  rw [RoleChoice.ofOptions, foldl_apply]
  simp

/-- Leaving out the option that asks the exports keeps the ids every other option gives. -/
theorem filterMap_filter_rolesFromExports {pick : BuildOption → Option UInt32}
    (hpick : pick .rolesFromExports = none) (opts : List BuildOption) :
    (opts.filter (· != .rolesFromExports)).filterMap pick = opts.filterMap pick := by
  rw [List.filterMap_filter]
  congr
  funext o
  by_cases ho : o = .rolesFromExports
  · simp [ho, hpick]
  · simp [ho]

/-- The choice options make depends on the other options, in order, and on whether one asks the
exports, not on where that one stands. -/
theorem ofOptions_congr {opts opts' : List BuildOption}
    (hother : opts'.filter (· != .rolesFromExports) = opts.filter (· != .rolesFromExports))
    (hexports : .rolesFromExports ∈ opts' ↔ .rolesFromExports ∈ opts) :
    RoleChoice.ofOptions opts' = RoleChoice.ofOptions opts := by
  have hsame : ∀ pick : BuildOption → Option UInt32, pick .rolesFromExports = none →
      opts'.filterMap pick = opts.filterMap pick := fun pick hpick => by
    rw [← filterMap_filter_rolesFromExports hpick opts', hother, filterMap_filter_rolesFromExports hpick]
  rw [ofOptions_eq, ofOptions_eq, hsame _ rfl, hsame _ rfl, hsame _ rfl]
  simp only [hexports]

/-- The ids asked for are those the options and the exports name. -/
theorem requested_ofOptions (v : View) (opts : List BuildOption) :
    requested v (.ofOptions opts) =
      ⟨namedRole BuildOption.stackPointer? (exported v stackPointerExport .global) opts,
        namedRole BuildOption.mainHeap? (exported v mainHeapExport .memory) opts,
        namedRole BuildOption.mainTable? (exported v mainTableExport .table) opts⟩ := by
  rw [requested, ofOptions_eq]
  by_cases h : BuildOption.rolesFromExports ∈ opts <;> simp [h, namedRole]

/-! ## Settling each role -/

/-- How building settles a role with `count` candidates: an id asked for must be one of them, and
with none asked the role is the first candidate. -/
def settleRole (asked : Option UInt32) (count : Nat) (missing : UInt32 → Fault) :
    Except Fault (Option UInt32) :=
  match asked with
  | some g => if g.toNat ≥ count then .error (missing g) else .ok (some g)
  | none => .ok (if 0 < count then some 0 else none)

theorem settleRole_of_missing {asked : Option UInt32} {count : Nat} (missing : UInt32 → Fault)
    (h : MissingRole asked count) : ∃ g, settleRole asked count missing = .error (missing g) := by
  obtain ⟨g, rfl, hg⟩ := h
  exact ⟨g, if_pos hg⟩

theorem settleRole_of_not_missing {asked : Option UInt32} {count : Nat} (missing : UInt32 → Fault)
    (h : ¬ MissingRole asked count) : settleRole asked count missing = .ok (chosenRole asked count) := by
  cases asked with
  | none => rfl
  | some g =>
    have hg : ¬ g.toNat ≥ count := fun hg => h ⟨g, rfl, hg⟩
    exact if_neg hg

/-- Choosing the roles settles the stack pointer among the view's globals, the main heap among
`n` memories and the main table among the view's tables, in this order, and logs nothing it
reads back. -/
theorem assignRoles_settles (v : View) (n : Nat) (c : RoleChoice) :
    (assignRoles v n c).outcome = (do
      let sp ← settleRole (requested v c).stackPointer v.globals.size
        fun g => Fault.notFound .resolve "stack pointer" (globalName g.toNat)
      let heap ← settleRole (requested v c).mainHeap n
        fun m => Fault.notFound .resolve "main heap" (memoryName m.toNat)
      let table ← settleRole (requested v c).mainTable v.tables.size
        fun t => Fault.notFound .resolve "main table" (tableName t.toNat)
      pure ⟨sp, heap, table⟩) := by
  apply Yields.outcome
  unfold assignRoles settleRole
  dsimp only
  -- the id asked for each role, if any, and whether it is a candidate; each case then runs alike
  cases (requested v c).stackPointer <;> cases (requested v c).mainHeap <;>
    cases (requested v c).mainTable <;> dsimp only <;> split_ifs <;> exact fun _ => rfl

/-- A role whose id named is not a candidate fails with a fault of resolution naming it. -/
theorem settleRole_notFound {asked : Option UInt32} {count : Nat} (what : String) (name : Nat → String)
    (h : MissingRole asked count) :
    ∃ e, settleRole asked count (fun g => Fault.notFound .resolve what (name g.toNat)) = .error e ∧
      e.phase = .resolve ∧ e.kind = .notFound := by
  obtain ⟨g, hg⟩ := settleRole_of_missing (fun g => Fault.notFound .resolve what (name g.toNat)) h
  exact ⟨_, hg, rfl, rfl⟩

/-- Choosing the roles that options ask for, among `n` memories, fails with a fault of resolution
that finds nothing when an id named for a role is not a candidate, and otherwise gives each role
its chosen id. -/
theorem assignRoles_ofOptions (v : View) (n : Nat) (opts : List BuildOption) :
    let sp := namedRole BuildOption.stackPointer? (exported v stackPointerExport .global) opts
    let heap := namedRole BuildOption.mainHeap? (exported v mainHeapExport .memory) opts
    let table := namedRole BuildOption.mainTable? (exported v mainTableExport .table) opts
    (MissingRole sp v.globals.size ∨ MissingRole heap n ∨ MissingRole table v.tables.size →
      ∃ e, (assignRoles v n (.ofOptions opts)).outcome = .error e ∧
        e.phase = .resolve ∧ e.kind = .notFound) ∧
    (¬ (MissingRole sp v.globals.size ∨ MissingRole heap n ∨ MissingRole table v.tables.size) →
      (assignRoles v n (.ofOptions opts)).outcome =
        .ok ⟨chosenRole sp v.globals.size, chosenRole heap n, chosenRole table v.tables.size⟩) := by
  intro sp heap table
  rw [assignRoles_settles, requested_ofOptions]
  refine ⟨fun hmissing => ?_, fun hnone => ?_⟩
  · -- the first role in order that is missing gives the fault
    by_cases hsp : MissingRole sp v.globals.size
    · obtain ⟨e, he, hk⟩ := settleRole_notFound "stack pointer" globalName hsp
      exact ⟨e, by rw [he]; rfl, hk⟩
    rw [settleRole_of_not_missing _ hsp, ok_bind]
    by_cases hheap : MissingRole heap n
    · obtain ⟨e, he, hk⟩ := settleRole_notFound "main heap" memoryName hheap
      exact ⟨e, by rw [he]; rfl, hk⟩
    rw [settleRole_of_not_missing _ hheap, ok_bind]
    have htable : MissingRole table v.tables.size := by
      rcases hmissing with h | h | h
      exacts [absurd h hsp, absurd h hheap, h]
    obtain ⟨e, he, hk⟩ := settleRole_notFound "main table" tableName htable
    exact ⟨e, by rw [he]; rfl, hk⟩
  · simp only [not_or] at hnone
    rw [settleRole_of_not_missing _ hnone.1, ok_bind, settleRole_of_not_missing _ hnone.2.1, ok_bind,
      settleRole_of_not_missing _ hnone.2.2]
    rfl

/-! ## The roles of a built image -/

/-- The roles of an image built with a list of options. Each role goes to the last id an option
gives it, else, when an option asks the exports, to the index its export names if the export is
of its kind, else to the first candidate. Once the memories are built, building fails exactly
when an id so named is not a global of the view or a memory or table of the image, and then with
a fault of resolution that finds nothing. Where the option that asks the exports stands among the
others does not matter. -/
theorem build_roles (v : View) (opts : List BuildOption) {ms : Array MemImage}
    (hms : (buildMemories v).outcome = .ok ms) :
    let sp := namedRole BuildOption.stackPointer? (exported v stackPointerExport .global) opts
    let heap := namedRole BuildOption.mainHeap? (exported v mainHeapExport .memory) opts
    let table := namedRole BuildOption.mainTable? (exported v mainTableExport .table) opts
    let out := (build v (.ofOptions opts)).outcome
    ((∃ e, out = .error e) ↔ MissingRole sp v.globals.size ∨ MissingRole heap v.memories.size ∨
      MissingRole table v.tables.size) ∧
    (∀ e, out = .error e → e.phase = .resolve ∧ e.kind = .notFound) ∧
    (∀ im, out = .ok im → im.memories.size = v.memories.size ∧ im.tables.size = v.tables.size ∧
      im.roles = ⟨chosenRole sp v.globals.size, chosenRole heap v.memories.size,
        chosenRole table v.tables.size⟩) ∧
    ∀ opts' : List BuildOption,
      opts'.filter (· != .rolesFromExports) = opts.filter (· != .rolesFromExports) →
      (.rolesFromExports ∈ opts' ↔ .rolesFromExports ∈ opts) →
      build v (.ofOptions opts') = build v (.ofOptions opts) := by
  intro sp heap table out
  -- the memories come first, one image per memory of the view
  have hfold : (List.range v.memories.size).foldlM (memoryStep v) #[] = .ok ms := by
    rw [← (buildMemories_yields v).outcome, hms]
  have hsize : ms.size = v.memories.size := ((memoryStep_foldlM v _ (Nat.le_refl _) ms).mp hfold).1
  have hout : out = (assignRoles v v.memories.size (.ofOptions opts)).outcome >>= fun roles =>
      pure { memories := ms, globals := knownGlobals v, tables := v.tables.map (·.funcElements),
             roles } := by
    show (build v _).outcome = _
    rw [(build_yields v _).outcome, hfold, ok_bind, hsize]
  obtain ⟨hfails, hchosen⟩ := assignRoles_ofOptions v v.memories.size opts
  refine ⟨⟨fun ⟨e, he⟩ => ?_, fun hmissing => ?_⟩, fun e he => ?_, fun im him => ?_,
    fun opts' hother hexports => by rw [ofOptions_congr hother hexports]⟩
  · by_contra hnone
    rw [hout, hchosen hnone] at he
    cases he
  · obtain ⟨e, he, -⟩ := hfails hmissing
    exact ⟨e, by rw [hout, he]; rfl⟩
  · by_cases hmissing : MissingRole sp v.globals.size ∨ MissingRole heap v.memories.size ∨
        MissingRole table v.tables.size
    · obtain ⟨e', he', hk⟩ := hfails hmissing
      rw [hout, he'] at he
      cases he
      exact hk
    · rw [hout, hchosen hmissing] at he
      cases he
  · by_cases hmissing : MissingRole sp v.globals.size ∨ MissingRole heap v.memories.size ∨
        MissingRole table v.tables.size
    · obtain ⟨e, he, -⟩ := hfails hmissing
      rw [hout, he] at him
      cases him
    · rw [hout, hchosen hmissing] at him
      cases him
      exact ⟨hsize, Array.size_map .., rfl⟩

/-- Two globals, a memory of no pages and a table; `__stack_pointer` exports global 1, and
`memory` exports a global, not a memory. -/
def exportedRolesView : View where
  raw := {}
  signatures := #[]
  globals := #[⟨.i32, true, false, some 0⟩, ⟨.i32, true, false, some 1024⟩]
  memories := #[{ initialPages := 0, maxPages := none, imported := false, memory64 := false }]
  tables := #[{ initial := 1, elemType := .funcref, imported := false }]
  exports := #[⟨"__stack_pointer", 1, .global⟩, ⟨"memory", 0, .global⟩]

theorem exportedRolesView_memories :
    (buildMemories exportedRolesView).outcome = .ok #[MemImage.zeroed (memoryName 0) 0] := by
  cbv

/-- With the stack pointer given twice and the exports asked in between, the id given last wins;
the export `memory` names a global, so the main heap is the first memory, and the main table is
the first table. -/
theorem build_roles_last_option_wins :
    (buildMemories exportedRolesView).outcome = .ok #[MemImage.zeroed (memoryName 0) 0] ∧
    ∃ im, (build exportedRolesView
        (.ofOptions [.stackPointer 0, .rolesFromExports, .stackPointer 1])).outcome = .ok im ∧
      im.roles = ⟨some 1, some 0, some 0⟩ := by
  obtain ⟨hfails, -, hroles, -⟩ := build_roles exportedRolesView
    [.stackPointer 0, .rolesFromExports, .stackPointer 1] exportedRolesView_memories
  refine ⟨exportedRolesView_memories, ?_⟩
  cases hb : (build exportedRolesView
      (.ofOptions [.stackPointer 0, .rolesFromExports, .stackPointer 1])).outcome with
  | error e => exact absurd (hfails.mp ⟨e, hb⟩) (by decide)
  | ok im => exact ⟨im, rfl, by rw [(hroles im hb).2.2]; decide⟩

end Image

end WasmImage
