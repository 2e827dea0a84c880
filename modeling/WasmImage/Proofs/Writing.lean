import Mathlib
import WasmImage.Wasm.Encode

/-!
# What the writers append

Every writer of the binary format appends to the bytes it is given and reads none of them. Its
output is seen here as a list of bytes: `written w x` is what `w` appends for `x`, and
`Appends w` says that `w` appends exactly that after any bytes. A vector is then its count
followed by the pieces of its entries (`vector_data`).
-/

namespace WasmImage

namespace Writer

/-! ## Byte arrays as lists -/

theorem toList_loop (bs : ByteArray) (i : Nat) (r : List UInt8) :
    ByteArray.toList.loop bs i r = r.reverse ++ bs.data.toList.drop i := by
  induction i, r using ByteArray.toList.loop.induct bs with
  | case1 i r hlt ih =>
    rw [ByteArray.toList.loop, if_pos hlt, ih]
    have hi : i < bs.data.toList.length := by simpa using hlt
    have hget : bs.get! i = bs.data.toList[i] := by
      simp only [ByteArray.get!, Array.getElem_toList]
      exact getElem!_pos bs.data i (by simpa using hlt)
    rw [List.drop_eq_getElem_cons hi, hget]
    simp
  | case2 i r hge =>
    rw [ByteArray.toList.loop, if_neg hge]
    have : bs.data.toList.length ≤ i := by simpa using hge
    simp [List.drop_eq_nil_of_le this]

theorem toList_eq (bs : ByteArray) : bs.toList = bs.data.toList := by
  rw [ByteArray.toList, toList_loop]
  simp

/-! ## The primitive writers -/

@[simp] theorem pushAll_data (out : ByteArray) (bs : List UInt8) :
    (pushAll out bs).data.toList = out.data.toList ++ bs := by
  induction bs generalizing out with
  | nil => simp [pushAll]
  | cons b bs ih =>
    show (pushAll (out.push b) bs).data.toList = _
    simp [ih]

@[simp] theorem u32_data (out : ByteArray) (v : UInt32) :
    (u32 out v).data.toList = out.data.toList ++ Leb128.unsigned v.toNat :=
  pushAll_data _ _

@[simp] theorem u64_data (out : ByteArray) (v : UInt64) :
    (u64 out v).data.toList = out.data.toList ++ Leb128.unsigned v.toNat :=
  pushAll_data _ _

@[simp] theorem sized_data (out data : ByteArray) :
    (sized out data).data.toList =
      out.data.toList ++ (Leb128.unsigned data.size.toUInt32.toNat ++ data.data.toList) := by
  simp [sized]

@[simp] theorem name_data (out : ByteArray) (s : String) :
    (name out s).data.toList =
      out.data.toList ++ (Leb128.unsigned s.toUTF8.size.toUInt32.toNat ++ s.toUTF8.data.toList) :=
  sized_data _ _

/-- The size field of a block that fits 32 bits holds its size. -/
theorem toNat_toUInt32_of_lt {n : Nat} (h : n < 2 ^ 32) : n.toUInt32.toNat = n := by
  rw [Nat.toUInt32_eq, UInt32.toNat_ofNat', Nat.mod_eq_of_lt h]

/-! ## Appending writers -/

variable {α : Type}

/-- The bytes that `w` appends for `x`. -/
def written (w : ByteArray → α → ByteArray) (x : α) : List UInt8 :=
  (w ByteArray.empty x).data.toList

/-- `w` appends `written w x` after whatever bytes it is given. -/
def Appends (w : ByteArray → α → ByteArray) : Prop :=
  ∀ out x, (w out x).data.toList = out.data.toList ++ written w x

/-- A writer whose output is the bytes before it followed by `f x` appends `f x`. -/
theorem Appends.of_data {w : ByteArray → α → ByteArray} {f : α → List UInt8}
    (h : ∀ out x, (w out x).data.toList = out.data.toList ++ f x) : Appends w := by
  intro out x
  rw [h, written, h]
  rfl

theorem Appends.foldl {w : ByteArray → α → ByteArray} (hw : Appends w) (xs : List α)
    (out : ByteArray) :
    (xs.foldl w out).data.toList = out.data.toList ++ (xs.map (written w)).flatten := by
  induction xs generalizing out with
  | nil => simp
  | cons x xs ih => simp [ih, hw out x]

theorem appends_u32 : Appends u32 := Appends.of_data u32_data

@[simp] theorem written_u32 : written u32 = fun v => Leb128.unsigned v.toNat :=
  funext fun v => by simp [written]

@[simp] theorem written_u64 : written u64 = fun v => Leb128.unsigned v.toNat :=
  funext fun v => by simp [written]

@[simp] theorem written_signed : written signed = Leb128.signed :=
  funext fun i => by simp [written, signed]

end Writer

namespace Wasm.Encode

open Writer

variable {α : Type}

@[simp] theorem section_data (out : ByteArray) (id : UInt8) (contents : ByteArray) :
    (section_ out id contents).data.toList =
      out.data.toList ++ id :: (Leb128.unsigned contents.size.toUInt32.toNat ++
        contents.data.toList) := by
  simp [section_]

theorem vector_data {entry : ByteArray → α → ByteArray} (h : Appends entry) (out : ByteArray)
    (xs : Array α) :
    (vector out xs entry).data.toList = out.data.toList ++
      (Leb128.unsigned xs.size.toUInt32.toNat ++ (xs.toList.map (written entry)).flatten) := by
  rw [vector, ← Array.foldl_toList, h.foldl, u32_data, List.append_assoc]

theorem vectorSection_data (out : ByteArray) (id : UInt8) (xs : Array α)
    (entry : ByteArray → α → ByteArray) :
    (vectorSection out id xs entry).data.toList = out.data.toList ++
      (if xs.isEmpty then [] else (section_ ByteArray.empty id (vector ByteArray.empty xs entry)).data.toList) := by
  unfold vectorSection
  split <;> simp

@[simp] theorem valTypes_data (out : ByteArray) (ts : List ValType) :
    (valTypes out ts).data.toList =
      out.data.toList ++ (Leb128.unsigned ts.length.toUInt32.toNat ++ ts.map (·.byte)) := by
  simp [valTypes]

theorem appends_valTypes : Appends valTypes := Appends.of_data valTypes_data

@[simp] theorem funcType_data (out : ByteArray) (t : FuncType) :
    (funcType out t).data.toList =
      out.data.toList ++ 0x60 :: (written valTypes t.params ++ written valTypes t.results) := by
  rw [funcType, appends_valTypes, appends_valTypes, ByteArray.data_push, Array.toList_push]
  simp

theorem appends_funcType : Appends funcType := Appends.of_data funcType_data

/-- The flags byte of limits, rebuilt from what they hold. -/
def limitsFlags (l : Limits) : UInt8 :=
  (if l.max.isSome then 1 else 0) ||| (if l.shared then 2 else 0) ||| (if l.memory64 then 4 else 0)

theorem limitsFlags_max (l : Limits) : (limitsFlags l &&& 1 != 0) = l.max.isSome := by
  obtain ⟨_, max, shared, memory64⟩ := l
  cases max <;> cases shared <;> cases memory64 <;> simp [limitsFlags] <;> decide

theorem limitsFlags_shared (l : Limits) : (limitsFlags l &&& 2 != 0) = l.shared := by
  obtain ⟨_, max, shared, memory64⟩ := l
  cases max <;> cases shared <;> cases memory64 <;> simp [limitsFlags] <;> decide

theorem limitsFlags_memory64 (l : Limits) : (limitsFlags l &&& 4 != 0) = l.memory64 := by
  obtain ⟨_, max, shared, memory64⟩ := l
  cases max <;> cases shared <;> cases memory64 <;> simp [limitsFlags] <;> decide

@[simp] theorem limits_data (out : ByteArray) (l : Limits) :
    (limits out l).data.toList = out.data.toList ++ limitsFlags l ::
      (Leb128.unsigned l.min.toNat ++ (l.max.map fun hi => Leb128.unsigned hi.toNat).getD []) := by
  obtain ⟨min, max, shared, memory64⟩ := l
  cases max <;> simp [limits, limitsFlags]

theorem appends_limits : Appends limits := Appends.of_data limits_data

@[simp] theorem tableType_data (out : ByteArray) (t : TableType) :
    (tableType out t).data.toList =
      out.data.toList ++ t.elemType.byte :: written limits t.limits := by
  rw [tableType, appends_limits, ByteArray.data_push, Array.toList_push]
  simp

theorem appends_tableType : Appends tableType := Appends.of_data tableType_data

@[simp] theorem globalType_data (out : ByteArray) (g : GlobalType) :
    (globalType out g).data.toList =
      out.data.toList ++ [g.valType.byte, if g.mutable then 1 else 0] := by
  simp [globalType]

theorem appends_globalType : Appends globalType := Appends.of_data globalType_data

@[simp] theorem global_data (out : ByteArray) (g : Global) :
    (global out g).data.toList =
      out.data.toList ++ (written globalType g.type ++ g.init.data.toList) := by
  rw [global, ByteArray.toList_data_append, appends_globalType, List.append_assoc]

theorem appends_global : Appends global := Appends.of_data global_data

theorem appends_name : Appends name := Appends.of_data name_data

/-- The bytes written for what an import brings in, after its kind. -/
def importDescBytes : ImportDesc → List UInt8
  | .func t => Leb128.unsigned t.toNat
  | .table t => written tableType t
  | .memory l => written limits l
  | .global g => written globalType g

@[simp] theorem importEntry_data (out : ByteArray) (i : Import) :
    (importEntry out i).data.toList = out.data.toList ++ (written name i.module ++
      written name i.name ++ i.desc.kind.toByte :: importDescBytes i.desc) := by
  unfold importEntry
  cases i.desc <;>
    simp only [importDescBytes, appends_name _ i.module, appends_name _ i.name, appends_tableType _,
      appends_limits _, appends_globalType _, u32_data, ByteArray.data_push, Array.toList_push,
      List.append_assoc, List.nil_append, List.cons_append]

theorem appends_importEntry : Appends importEntry := Appends.of_data importEntry_data

@[simp] theorem exportEntry_data (out : ByteArray) (e : Export) :
    (exportEntry out e).data.toList = out.data.toList ++ (written name e.name ++
      e.kind.toByte :: Leb128.unsigned e.idx.toNat) := by
  rw [exportEntry, u32_data, ByteArray.data_push, Array.toList_push, appends_name]
  simp

theorem appends_exportEntry : Appends exportEntry := Appends.of_data exportEntry_data

/-- Appending a block of bytes as it is. -/
theorem appends_append : Appends fun (out b : ByteArray) => out ++ b :=
  Appends.of_data fun _ _ => ByteArray.toList_data_append

@[simp] theorem written_append :
    written (fun (out b : ByteArray) => out ++ b) = fun b => b.data.toList :=
  funext fun b => by simp [written]

/-- The expressions the element writer writes under expression flags; none for indices. -/
def exprList : ElemItems → List ByteArray
  | .exprs es => es
  | .funcs _ => []

/-- The function indices the element writer writes under index flags; none for expressions. -/
def funcList : ElemItems → List UInt32
  | .funcs fs => fs
  | .exprs _ => []

@[simp] theorem element_data (out : ByteArray) (e : Element) :
    (element out e).data.toList = out.data.toList ++ (Leb128.unsigned e.flags.toNat ++
      ((if e.flags &&& 2 != 0 && e.flags &&& 1 == 0 then Leb128.unsigned e.tableIdx.toNat else []) ++
      ((if e.flags &&& 1 == 0 then (e.offset.getD ByteArray.empty).data.toList else []) ++
      ((if e.flags &&& 3 != 0 then [if e.flags &&& 4 != 0 then e.type.byte else e.elemKind]
        else []) ++
      (if e.flags &&& 4 != 0 then
        Leb128.unsigned (exprList e.items).length.toUInt32.toNat ++
          ((exprList e.items).map (·.data.toList)).flatten
      else
        Leb128.unsigned (funcList e.items).length.toUInt32.toNat ++
          ((funcList e.items).map (Leb128.unsigned ·.toNat)).flatten))))) := by
  obtain ⟨flags, tableIdx, offset, elemKind, type, items⟩ := e
  cases items <;> simp only [element, Element.isActive] <;> split_ifs <;>
    simp_all [appends_append.foldl, appends_u32.foldl, exprList, funcList]

theorem appends_element : Appends element := Appends.of_data element_data

@[simp] theorem localGroup_data (out : ByteArray) (g : LocalGroup) :
    (localGroup out g).data.toList =
      out.data.toList ++ (Leb128.unsigned g.count.toNat ++ [g.type.byte]) := by
  simp [localGroup]

theorem appends_localGroup : Appends localGroup := Appends.of_data localGroup_data

/-- The local groups of a body with their count, as the body writes them. -/
def localsBytes (gs : List LocalGroup) : List UInt8 :=
  Leb128.unsigned gs.length.toUInt32.toNat ++ (gs.map (written localGroup)).flatten

/-- The contents of a body: its local groups, then its code. -/
theorem body_contents_data (b : Body) :
    (b.locals.foldl localGroup (u32 ByteArray.empty b.locals.length.toUInt32) ++ b.code).data.toList =
      localsBytes b.locals ++ b.code.data.toList := by
  simp [appends_localGroup.foldl, localsBytes]

@[simp] theorem dataSegment_data (out : ByteArray) (d : DataSegment) :
    (dataSegment out d).data.toList = out.data.toList ++ (Leb128.unsigned d.flags.toNat ++
      (if d.flags = 2 then Leb128.unsigned d.memIdx.toNat else []) ++
      (if d.flags != 1 then (d.offset.getD ByteArray.empty).data.toList else []) ++
      (Leb128.unsigned d.init.size.toUInt32.toNat ++ d.init.data.toList)) := by
  unfold dataSegment
  split <;> split <;> simp

theorem appends_dataSegment : Appends dataSegment := Appends.of_data dataSegment_data

@[simp] theorem body_data (out : ByteArray) (b : Body) :
    (body out b).data.toList = out.data.toList ++
      (Leb128.unsigned (b.locals.foldl localGroup (u32 ByteArray.empty b.locals.length.toUInt32) ++
        b.code).size.toUInt32.toNat ++ (localsBytes b.locals ++ b.code.data.toList)) := by
  rw [body, sized_data, body_contents_data]

theorem appends_body : Appends body := Appends.of_data body_data

theorem appends_custom : Appends custom :=
  Appends.of_data fun out _ => section_data out 0 _

end Wasm.Encode

end WasmImage
