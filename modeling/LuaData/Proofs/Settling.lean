import LuaData.Heap
import LuaData.Proofs.Moment

/-!
# Settling a heap

`Heap.settle` releases cells and changes none (`releases_settle`). A cell that a root holds stays
(`cell?_settle_of_root`), and so does what a cell that is left keeps: a heap without dangling names
is left without them (`Closed.settle`). So a heap that is settled is at a later moment, and the
values that are held are still there.
-/

namespace LuaData.Heap

variable {h g : Heap} {roots : List Ref} {r : Ref} {cell : Cell}

/-! ## What is marked -/

/-- Marking does not change the number of marks. -/
theorem size_mark (marks : Array Bool) (refs : List Ref) : (mark marks refs).size = marks.size := by
  induction refs generalizing marks with
  | nil => rfl
  | cons r refs ih =>
    show (mark (marks.setIfInBounds r true) refs).size = marks.size
    rw [ih, Array.size_setIfInBounds]

/-- A name is marked if it was or is one of the given ones. -/
theorem getD_mark (marks : Array Bool) (refs : List Ref) (r : Ref) :
    (mark marks refs).getD r false = true ↔
      marks.getD r false = true ∨ r ∈ refs ∧ r < marks.size := by
  induction refs generalizing marks with
  | nil => simp [mark]
  | cons q refs ih =>
    show (mark (marks.setIfInBounds q true) refs).getD r false = true ↔ _
    rw [ih, Array.size_setIfInBounds]
    by_cases hq : q = r
    · subst hq
      by_cases hlt : q < marks.size
      · simp [Array.getD_eq_getD_getElem?, hlt]
      · simp [Array.getD_eq_getD_getElem?, hlt]
    · simp [Array.getD_eq_getD_getElem?, Array.getElem?_setIfInBounds_ne hq, Ne.symm hq]

/-- The names that are marked are those that a root or a live cell holds. -/
theorem getD_heldMarks (h : Heap) (roots : List Ref) (r : Ref) :
    (h.heldMarks roots).getD r false = true ↔
      r < h.cells.size ∧ (r ∈ roots ∨ ∃ cell, some cell ∈ h.cells ∧ r ∈ cell.kept) := by
  have hfold : ∀ (cells : List (Option Cell)) (marks : Array Bool),
      (cells.foldl (fun marks cell ↦ mark marks ((cell.map Cell.kept).getD [])) marks).getD r
        false = true ↔ marks.getD r false = true ∨
          r < marks.size ∧ ∃ cell, some cell ∈ cells ∧ r ∈ cell.kept := by
    intro cells
    induction cells with
    | nil => simp
    | cons cell cells ih =>
      intro marks
      rw [List.foldl_cons, ih, getD_mark, size_mark]
      cases cell with
      | none => simp
      | some cell =>
        simp only [Option.map_some, Option.getD_some, List.mem_cons, Option.some.injEq]
        constructor
        · rintro ((hmark | ⟨hkept, hlt⟩) | ⟨hlt, other, hmem, hkept⟩)
          · exact .inl hmark
          · exact .inr ⟨hlt, cell, .inl rfl, hkept⟩
          · exact .inr ⟨hlt, other, .inr hmem, hkept⟩
        · rintro (hmark | ⟨hlt, other, rfl | hmem, hkept⟩)
          · exact .inl (.inl hmark)
          · exact .inl (.inr ⟨hkept, hlt⟩)
          · exact .inr ⟨hlt, other, hmem, hkept⟩
  unfold heldMarks
  rw [← Array.foldl_toList, hfold, getD_mark, size_mark]
  simp only [Array.size_replicate, Array.mem_toList_iff]
  have hnone : (Array.replicate h.cells.size false).getD r false = false := by
    simp only [Array.getD_eq_getD_getElem?, Array.getElem?_replicate]
    split <;> rfl
  rw [hnone]
  simp only [Bool.false_eq_true, false_or]
  tauto

/-- A round releases what is not marked and leaves the rest. -/
theorem cell?_releaseUnheld (h : Heap) (roots : List Ref) (r : Ref) :
    (h.releaseUnheld roots).cell? r =
      if (h.heldMarks roots).getD r false then h.cell? r else none := by
  simp only [releaseUnheld, cell?, Array.getElem?_mapIdx]
  cases h.cells[r]? with
  | none => simp
  | some cell =>
    simp only [Option.map_some, Option.join_some]

/-- What every round keeps holds of the settled heap. -/
theorem settle_induction {P : Heap → Prop} (hstart : P h)
    (hround : ∀ g, P g → P (g.releaseUnheld roots)) : P (h.settle roots) := by
  have hwithin : ∀ rounds g, P g → P (settleWithin roots rounds g) := by
    intro rounds
    induction rounds with
    | zero => exact fun g hg ↦ hg
    | succ rounds ih =>
      intro g hg
      show P (if (g.releaseUnheld roots).liveCount = g.liveCount then g
        else settleWithin roots rounds (g.releaseUnheld roots))
      split
      · exact hg
      · exact ih _ (hround g hg)
  exact hwithin _ h hstart

/-! ## What is left -/

/-- Cells are released, and none is changed. -/
structure Releases (h g : Heap) : Prop where
  fresh : g.fresh = h.fresh
  old : ∀ r cell, g.cell? r = some cell → h.cell? r = some cell

/-- A round releases cells and changes none. -/
theorem releases_releaseUnheld (h : Heap) (roots : List Ref) :
    Releases h (h.releaseUnheld roots) where
  fresh := Array.size_mapIdx
  old := fun r cell hcell ↦ by
    rw [cell?_releaseUnheld] at hcell
    split at hcell
    · exact hcell
    · cases hcell

/-- Settling releases cells and changes none. -/
theorem releases_settle (h : Heap) (roots : List Ref) : Releases h (h.settle roots) := by
  refine settle_induction (P := Releases h) ⟨rfl, fun _ _ hcell ↦ hcell⟩ fun g hg ↦ ?_
  have hround := releases_releaseUnheld g roots
  exact ⟨hround.fresh.trans hg.fresh, fun r cell hcell ↦ hg.old r cell (hround.old r cell hcell)⟩

/-- A table is found in its cell. -/
theorem cell?_of_table? {t : Table} (ht : h.table? r = some t) : h.cell? r = some (.table t) := by
  unfold table? at ht
  split at ht
  · cases ht
    assumption
  · cases ht

/-- A live cell has a name that was given. -/
theorem lt_fresh_of_cell? (hcell : h.cell? r = some cell) : r < h.fresh := by
  by_contra hge
  rw [cell?, Array.getElem?_eq_none (Nat.le_of_not_lt hge)] at hcell
  cases hcell

/-- What a root holds stays. -/
theorem cell?_settle_of_root (hr : r ∈ roots) (hcell : h.cell? r = some cell) :
    (h.settle roots).cell? r = some cell := by
  refine settle_induction (P := fun g ↦ g.cell? r = some cell) hcell fun g hg ↦ ?_
  rw [cell?_releaseUnheld, if_pos]
  · exact hg
  · exact (getD_heldMarks g roots r).mpr ⟨lt_fresh_of_cell? hg, .inl hr⟩

/-- What the live cells keep is alive. -/
def Closed (h : Heap) : Prop :=
  ∀ r cell, h.cell? r = some cell → ∀ q ∈ cell.kept, h.alive q = true

/-- What a cell that is left keeps is left. -/
theorem Closed.settle (hclosed : h.Closed) (roots : List Ref) : (h.settle roots).Closed := by
  refine settle_induction hclosed fun g hg r cell hcell q hq ↦ ?_
  have hold := (releases_releaseUnheld g roots).old r cell hcell
  obtain ⟨kept, hkept⟩ := Option.isSome_iff_exists.mp (hg r cell hold q hq)
  have hmem : some cell ∈ g.cells := Array.mem_of_getElem? (Option.join_eq_some_iff.mp hold)
  have hmarked := (getD_heldMarks g roots q).mpr ⟨lt_fresh_of_cell? hkept, .inr ⟨cell, hmem, hq⟩⟩
  rw [alive, cell?_releaseUnheld, if_pos hmarked, hkept]
  rfl

/-- The moment of a heap. -/
def moment (h : Heap) : Moment where
  alive := h.alive
  fresh := h.fresh
  lt_fresh := fun _ hr ↦ by
    obtain ⟨cell, hcell⟩ := Option.isSome_iff_exists.mp hr
    exact lt_fresh_of_cell? hcell

/-- After cells were released it is a later moment. -/
theorem Releases.moment_le (hreleases : Releases h g) : h.moment ≤ g.moment := by
  refine ⟨Nat.le_of_eq hreleases.fresh.symm, fun r _ hr ↦ ?_⟩
  obtain ⟨cell, hcell⟩ := Option.isSome_iff_exists.mp hr
  exact Option.isSome_iff_exists.mpr ⟨cell, hreleases.old r cell hcell⟩

end LuaData.Heap
