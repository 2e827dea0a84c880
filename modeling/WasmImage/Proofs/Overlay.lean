import Mathlib

/-!
# Placing lists over one another

A data segment places bytes into a memory from an offset, and an active element segment places
functions into a table's slots. Placed in order, a later placement overwrites what an earlier
one put wherever they overlap. `overlay d ps i` is what stands at `i` once all of `ps` are
placed over a background of `d`: the item of the last placement that covers `i`, or `d` where
none does. `reach ps` is the first index past every placement.

Both loops of the model that place things keep their contents equal to the overlay of what they
have placed so far (`place_map_overlay`), and growing the contents with the background keeps it
(`map_overlay_extend`).
-/

namespace WasmImage

/-- Items placed from an offset. -/
structure Placed (α : Type) where
  offset : Nat
  items : List α

namespace Placed

variable {α : Type}

/-- The first index past the items. -/
def stop (p : Placed α) : Nat := p.offset + p.items.length

/-- Whether `p` puts an item at `i`. -/
def covers (p : Placed α) (i : Nat) : Bool := p.offset ≤ i && i < p.stop

theorem covers_iff {p : Placed α} {i : Nat} : p.covers i ↔ p.offset ≤ i ∧ i < p.stop := by
  simp [covers]

end Placed

section Overlay

variable {α : Type}

/-- The item at `i` once `ps` are placed in order over a background of `d`: that of the last
placement covering `i`, or `d`. -/
def overlay (d : α) (ps : List (Placed α)) (i : Nat) : α :=
  match (ps.filter (·.covers i)).getLast? with
  | some p => p.items.getD (i - p.offset) d
  | none => d

/-- The first index past every placement. -/
def reach (ps : List (Placed α)) : Nat := (ps.map Placed.stop).foldr max 0

@[simp] theorem overlay_nil (d : α) : overlay d ([] : List (Placed α)) = fun _ => d := rfl

/-- A placement made last wins where it covers, and leaves the rest as it was. -/
theorem overlay_append_singleton (d : α) (ps : List (Placed α)) (p : Placed α) (i : Nat) :
    overlay d (ps ++ [p]) i = if p.covers i then p.items.getD (i - p.offset) d else overlay d ps i := by
  unfold overlay
  rw [List.filter_append, List.getLast?_append]
  by_cases hp : p.covers i <;> simp [hp]

@[simp] theorem reach_nil : reach ([] : List (Placed α)) = 0 := rfl

theorem reach_append_singleton (ps : List (Placed α)) (p : Placed α) :
    reach (ps ++ [p]) = max (reach ps) p.stop := by
  induction ps with
  | nil => simp [reach]
  | cons q ps ih =>
    simp only [reach, List.cons_append, List.map_cons, List.foldr_cons] at ih ⊢
    rw [ih]
    omega

theorem stop_le_reach {ps : List (Placed α)} {p : Placed α} (hp : p ∈ ps) : p.stop ≤ reach ps := by
  induction ps with
  | nil => cases hp
  | cons q ps ih =>
    simp only [reach, List.map_cons, List.foldr_cons] at ih ⊢
    rcases List.mem_cons.mp hp with rfl | hp
    · omega
    · have := ih hp
      omega

/-- Past every placement lies the background. -/
theorem overlay_of_reach_le {d : α} {ps : List (Placed α)} {i : Nat} (h : reach ps ≤ i) :
    overlay d ps i = d := by
  unfold overlay
  rw [(List.getLast?_eq_none_iff).mpr]
  rw [List.filter_eq_nil_iff]
  intro p hp hcov
  have := stop_le_reach hp
  rw [Placed.covers_iff] at hcov
  omega

/-- Placing `p` over the overlay of `ps` gives the overlay of `ps` then `p`. -/
def place (l : List α) (p : Placed α) : List α := l.take p.offset ++ p.items ++ l.drop p.stop

theorem place_map_overlay {d : α} {ps : List (Placed α)} {p : Placed α} {n : Nat} (h : p.stop ≤ n) :
    place ((List.range n).map (overlay d ps)) p = (List.range n).map (overlay d (ps ++ [p])) := by
  have hstop : p.stop = p.offset + p.items.length := rfl
  apply List.ext_getElem
  · simp only [place, List.length_append, List.length_take, List.length_map, List.length_range,
      List.length_drop]
    omega
  · intro i h₁ h₂
    have hoff : min p.offset n = p.offset := by omega
    simp only [List.getElem_map, List.getElem_range, overlay_append_singleton, Placed.covers_iff,
      place, List.getElem_append, List.length_append, List.length_take, List.length_map,
      List.length_range, List.getElem_take, List.getElem_drop, hoff]
    by_cases hlo : i < p.offset
    · -- before the placement
      rw [dif_pos (by omega), dif_pos hlo, if_neg (by omega)]
    · by_cases hhi : i < p.stop
      · -- inside it
        rw [dif_pos (by omega), dif_neg hlo, if_pos ⟨by omega, hhi⟩]
        exact (List.getD_eq_getElem _ _ (by omega)).symm
      · -- after it
        rw [dif_neg (by omega), if_neg (by omega)]
        congr 1
        omega

/-- Growing the contents with the background, past every placement, keeps them the overlay. -/
theorem map_overlay_extend {d : α} {ps : List (Placed α)} {n m : Nat} (hn : reach ps ≤ n)
    (hm : n ≤ m) :
    (List.range n).map (overlay d ps) ++ List.replicate (m - n) d =
      (List.range m).map (overlay d ps) := by
  apply List.ext_getElem
  · simp
    omega
  · intro i h₁ h₂
    simp only [List.getElem_append, List.length_map, List.length_range, List.getElem_map,
      List.getElem_range, List.getElem_replicate]
    split
    · rfl
    · exact (overlay_of_reach_le (by omega)).symm

end Overlay

end WasmImage
