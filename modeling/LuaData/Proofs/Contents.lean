import Mathlib.Data.Set.Finite.Lattice
import LuaData.Proofs.Operations

/-!
# The contents of a table

What a table means is a finite map from keys in normal form to values. `Contents` is such a map,
with the operations that belong to a write (`Contents.set`), to the insertion of a value into a list
(`Contents.insert`) and to its removal (`Contents.remove`). The last two shift the values of all
keys between a position and the border at once; `read_copyAll_copiesUp` and
`read_copyAll_copiesDown` say that copying the values one by one comes to the same.
-/

namespace LuaData

namespace Value

/-- The form in which a value addresses an entry: a float that has an integer as that integer, and a
string without its cell. -/
def normal? (v : Value) : Option Value :=
  v.key?.map content

/-- The normal form of a stored key is its content. -/
theorem normal?_of_stored {key : Value} (h : key.Stored) : key.normal? = some key.content := by
  rw [normal?, h, Option.map_some]

/-- The normal form of a value is the content of its stored form. -/
theorem normal?_of_key? {v key : Value} (h : v.key? = some key) : v.normal? = some key.content := by
  rw [normal?, h, Option.map_some]

/-- A value has a normal form if it has a stored form. -/
theorem normal?_eq_some_iff {v x : Value} :
    v.normal? = some x ↔ ∃ key, v.key? = some key ∧ key.content = x :=
  Option.map_eq_some_iff

/-- Normal forms are their own normal forms. -/
theorem normal?_idem {v k : Value} (h : v.normal? = some k) : k.normal? = some k := by
  obtain ⟨key, hkey, rfl⟩ := Option.map_eq_some_iff.mp h
  rw [normal?_of_stored (stored_of_key? hkey).content, content_content]

/-- The normal form of an integer is that integer. -/
@[simp]
theorem normal?_int (k : Int64) : normal? (.int k) = some (.int k) := rfl

/-- What addresses the entry of a string is a string of the same bytes. -/
theorem eq_str_of_normal? {v : Value} {bytes : Bytes} (h : v.normal? = some (.str ⟨bytes, 0⟩)) :
    ∃ str : Str, v = .str str ∧ str.bytes = bytes := by
  obtain ⟨key, hkey, hcontent⟩ := normal?_eq_some_iff.mp h
  obtain ⟨str, rfl, hbytes⟩ := content_eq_str hcontent
  cases v with
  | str p =>
    cases hkey
    exact ⟨str, rfl, hbytes⟩
  | num n =>
    cases n with
    | int i => cases hkey
    | float x =>
      -- A float is stored as an integer or as itself.
      unfold key? at hkey
      dsimp only at hkey
      split at hkey
      · cases hkey
      · split at hkey <;> cases hkey
  | _ => cases hkey

/-- Nil and NaN are no keys. -/
def NoKey (v : Value) : Prop :=
  v = .nil ∨ ∃ x : Double, v = .float x ∧ x.isNaN = true

/-- The values without a stored form are nil and NaN. -/
theorem key?_eq_none_iff (v : Value) : v.key? = none ↔ v.NoKey := by
  unfold key? NoKey
  split
  · simp
  · rename_i x
    by_cases hnan : x.isNaN = true
    · simp [hnan]
    · simp only [hnan, Bool.false_eq_true, if_false]
      cases x.integer? <;> simp_all
  · rename_i hnil hfloat
    simp only [reduceCtorEq, false_iff, not_or, not_exists, not_and]
    exact ⟨hnil, fun x hx ↦ absurd hx (hfloat x)⟩

/-- The values without a normal form are nil and NaN. -/
theorem normal?_eq_none_iff (v : Value) : v.normal? = none ↔ v.NoKey := by
  rw [normal?, Option.map_eq_none_iff, key?_eq_none_iff]

end Value

/-- A finite map from keys in normal form to values. Nil stands for an absent key. -/
structure Contents where
  read : Value → Value
  normal : ∀ k, read k ≠ .nil → k.normal? = some k
  finite : {k | read k ≠ .nil}.Finite

namespace Contents

variable {M : Contents}

/-- The value of a key in any form. -/
def get (M : Contents) (key : Value) : Value :=
  match key.normal? with
  | some k => M.read k
  | none => .nil

/-- No keys. -/
def empty : Contents where
  read _ := .nil
  normal _ h := absurd rfl h
  finite := by simp

/-- The key gets a value, or is removed by nil. -/
def set (M : Contents) (key value : Value) : Contents where
  read k := if key.normal? = some k then value else M.read k
  normal k h := by
    split at h
    · rename_i hkey
      exact Value.normal?_idem hkey
    · exact M.normal k h
  finite := by
    have hkey : {k | key.normal? = some k}.Finite := by
      refine Set.Subsingleton.finite fun k hk l hl ↦ ?_
      have hk' : key.normal? = some k := hk
      have hl' : key.normal? = some l := hl
      exact Option.some.inj (hk'.symm.trans hl')
    refine (hkey.union M.finite).subset fun k hk ↦ ?_
    by_cases h : key.normal? = some k
    · exact .inl h
    · have hread : (if key.normal? = some k then value else M.read k) ≠ .nil := hk
      rw [if_neg h] at hread
      exact .inr hread

/-- What a map has after a write. -/
theorem get_set (M : Contents) {key : Value} (hkey : ¬ key.NoKey) (value k : Value) :
    (M.set key value).get k = if k.normal? = key.normal? then value else M.get k := by
  have hnormal : key.normal? ≠ none := fun h ↦ hkey ((Value.normal?_eq_none_iff key).mp h)
  unfold get set
  cases hk : k.normal? with
  | none => rw [if_neg fun h ↦ hnormal h.symm]
  | some l => exact if_congr eq_comm rfl rfl

/-- Integers are in normal form, and the values of other keys are not shifted. -/
theorem normal_of_shift {read : Value → Value}
    (h : ∀ key : Value, (∀ k, key ≠ .int k) → read key = M.read key) (k : Value)
    (hk : read k ≠ .nil) : k.normal? = some k := by
  by_cases hint : ∃ i, k = .int i
  · obtain ⟨i, rfl⟩ := hint
    rfl
  · rw [h k fun i hi ↦ hint ⟨i, hi⟩] at hk
    exact M.normal k hk

/-- An integer key some steps back. -/
def stepBack (step : Int64) : Value → Value
  | .int k => .int (k - step)
  | key => key

/-- A map that has under each integer the value of a neighbour or its old value, except for one, and
the old values under all other keys, is finite. -/
theorem finite_of_shift {read : Value → Value} (step : Int64) (free : Int)
    (hother : ∀ key : Value, (∀ k, key ≠ .int k) → read key = M.read key)
    (hint : ∀ k : Int64, k.toInt = free ∨ read (.int k) = M.read (.int (k + step)) ∨
      read (.int k) = M.read (.int k)) : {k | read k ≠ .nil}.Finite := by
  -- Each key with a value is the free one, has its old value or comes from a neighbour with one.
  refine ((Set.finite_singleton (.int (Int64.ofInt free))).union
    (M.finite.union (M.finite.image (stepBack step)))).subset fun key hkey ↦ ?_
  by_cases hkind : ∃ k, key = .int k
  · obtain ⟨k, rfl⟩ := hkind
    have hread : read (.int k) ≠ .nil := hkey
    rcases hint k with hfree | hfrom | hold
    · refine .inl ?_
      show Value.int k = .int (Int64.ofInt free)
      rw [← hfree, Int64.ofInt_toInt]
    · rw [hfrom] at hread
      refine .inr (.inr ⟨_, hread, ?_⟩)
      show Value.int (k + step - step) = .int k
      rw [Int64.add_sub_cancel]
    · rw [hold] at hread
      exact .inr (.inl hread)
  · have hread : read key ≠ .nil := hkey
    rw [hother key fun k hk ↦ hkind ⟨k, hk⟩] at hread
    exact .inr (.inl hread)

/-- The values of the integers `first, …, first + count - 1` are moved one key up, and `first` gets
a value. -/
def shiftUp (M : Contents) (first count : Nat) (value : Value) : Contents where
  read := Table.shiftedUp M.read first count value
  normal := normal_of_shift fun _ ↦ Table.shiftedUp_of_not_int _ _ _ _
  finite := finite_of_shift (-1) first (fun _ ↦ Table.shiftedUp_of_not_int _ _ _ _) fun k ↦ by
    by_cases hfirst : k.toInt = first
    · exact .inl hfirst
    · refine .inr ?_
      simp only [Table.shiftedUp, if_neg hfirst]
      split
      · refine .inl ?_
        rw [Int64.ofInt_sub, Int64.ofInt_toInt, Int64.sub_eq_add_neg]
        rfl
      · exact .inr rfl

/-- The values of the integers `first + 1, …, first + count` are moved one key down, and
`first + count` is removed. -/
def shiftDown (M : Contents) (first count : Nat) : Contents where
  read := Table.shiftedDown M.read first count
  normal := normal_of_shift fun _ ↦ Table.shiftedDown_of_not_int _ _ _
  finite := finite_of_shift 1 (first + count)
    (fun _ ↦ Table.shiftedDown_of_not_int _ _ _) fun k ↦ by
    by_cases hlast : k.toInt = first + count
    · exact .inl hlast
    · refine .inr ?_
      simp only [Table.shiftedDown, if_neg hlast]
      split
      · refine .inl ?_
        rw [Int64.ofInt_add, Int64.ofInt_toInt]
        rfl
      · exact .inr rfl

/-- A value is inserted at a position of a list with border `n`; position zero is the end. -/
def insert (M : Contents) (n : Nat) (position : Int64) (value : Value) : Contents :=
  let first := (Table.insertPosition n position).toNat
  M.shiftUp first (n + 1 - first) value

/-- The value at a position of a list with border `n` is removed; position zero is the last one. -/
def remove (M : Contents) (n : Nat) (position : Int64) : Contents :=
  if position = 0 ∧ n = 0 then M
  else
    let first := (Table.removePosition n position).toNat
    M.shiftDown first (n - first)

/-- The value of one integer key is copied to another. -/
def copy (M : Contents) (job : Nat × Nat) : Contents :=
  M.set (.int (Int64.ofNat job.2)) (M.read (.int (Int64.ofNat job.1)))

/-- Values are copied one after the other. -/
def copyAll (M : Contents) (jobs : List (Nat × Nat)) : Contents :=
  jobs.foldl copy M

/-- What an integer has after a write to an integer. -/
theorem read_set_int (M : Contents) {n : Nat} (hn : n < 2 ^ 63) (value : Value) (k : Int64) :
    (M.set (.int (Int64.ofNat n)) value).read (.int k) =
      if k.toInt = n then value else M.read (.int k) := by
  have hkey : (Value.normal? (.int (Int64.ofNat n)) = some (.int k)) ↔ k.toInt = n := by
    rw [← Int64.toInt_ofNat_of_lt hn, Int64.toInt_inj]
    simp [eq_comm]
  show (if _ then value else M.read (.int k)) = _
  rw [if_congr hkey rfl rfl]

/-- A write to an integer leaves the other kinds of keys. -/
theorem read_set_of_not_int (M : Contents) (n : Int64) (value : Value) {key : Value}
    (hint : ∀ k, key ≠ .int k) : (M.set (.int n) value).read key = M.read key := by
  refine if_neg ?_
  rw [Value.normal?_int, Option.some.injEq]
  exact (hint n).symm

/-- Copying the values one key up, the last one first, and then writing to the first key shifts
them. -/
theorem read_copyAll_copiesUp (M : Contents) (first count : Nat) (hbound : first + count < 2 ^ 63)
    (value : Value) (key : Value) :
    ((M.copyAll (Table.copiesUp first count)).set (.int (Int64.ofNat first)) value).read key =
      Table.shiftedUp M.read first count value key := by
  induction count generalizing M with
  | zero =>
    by_cases hint : ∃ k, key = .int k
    · obtain ⟨k, rfl⟩ := hint
      rw [read_set_int _ (by omega)]
      simp only [Table.shiftedUp]
      by_cases hfirst : k.toInt = first
      · rw [if_pos hfirst, if_pos hfirst]
      · rw [if_neg hfirst, if_neg hfirst, if_neg (by omega)]
        rfl
    · have hint' : ∀ k, key ≠ .int k := fun k hk ↦ hint ⟨k, hk⟩
      rw [read_set_of_not_int _ _ _ hint', Table.shiftedUp_of_not_int _ _ _ _ hint']
      rfl
  | succ count ih =>
    show ((copyAll (M.copy (first + count, first + count + 1)) _).set _ value).read key = _
    rw [ih _ (by omega)]
    by_cases hint : ∃ k, key = .int k
    · obtain ⟨k, rfl⟩ := hint
      simp only [Table.shiftedUp, copy]
      rw [read_set_int _ (by omega), read_set_int _ (by omega)]
      by_cases hfirst : k.toInt = first
      · rw [if_pos hfirst, if_pos hfirst]
      · rw [if_neg hfirst, if_neg hfirst]
        by_cases hlast : k.toInt = (first + count + 1 : Nat)
        · -- The last value is the one that the first copy brought.
          have hpred : Int64.ofInt (k.toInt - 1) = Int64.ofNat (first + count) := by
            rw [show k.toInt - 1 = (first + count : Nat) by omega]
            rfl
          rw [if_neg (by omega), if_pos hlast, if_pos (by omega), hpred]
        · by_cases hshift : first < k.toInt ∧ k.toInt ≤ first + count
          · have hpred : (Int64.ofInt (k.toInt - 1)).toInt = k.toInt - 1 :=
              Int64.toInt_ofInt_of_le (by omega) (by have := k.toInt_lt; omega)
            rw [if_pos hshift, if_neg (by omega), if_pos (by omega)]
          · rw [if_neg hshift, if_neg hlast, if_neg (by omega)]
    · have hint' : ∀ k, key ≠ .int k := fun k hk ↦ hint ⟨k, hk⟩
      rw [Table.shiftedUp_of_not_int _ _ _ _ hint', Table.shiftedUp_of_not_int _ _ _ _ hint']
      exact read_set_of_not_int _ _ _ hint'

/-- Copying the values one key down, the first one first, and then removing the last key shifts
them. -/
theorem read_copyAll_copiesDown (M : Contents) (first count : Nat) (hbound : first + count < 2 ^ 63)
    (key : Value) :
    ((M.copyAll (Table.copiesDown first count)).set (.int (Int64.ofNat (first + count))) .nil).read
      key = Table.shiftedDown M.read first count key := by
  induction count generalizing M first with
  | zero =>
    by_cases hint : ∃ k, key = .int k
    · obtain ⟨k, rfl⟩ := hint
      rw [read_set_int _ (by omega)]
      simp only [Table.shiftedDown]
      by_cases hfirst : k.toInt = first
      · rw [if_pos (by omega), if_pos (by omega)]
      · rw [if_neg (by omega), if_neg (by omega), if_neg (by omega)]
        rfl
    · have hint' : ∀ k, key ≠ .int k := fun k hk ↦ hint ⟨k, hk⟩
      rw [read_set_of_not_int _ _ _ hint', Table.shiftedDown_of_not_int _ _ _ hint']
      rfl
  | succ count ih =>
    show ((copyAll (M.copy (first + 1, first)) _).set _ .nil).read key = _
    rw [show first + (count + 1) = first + 1 + count by omega, ih _ _ (by omega)]
    by_cases hint : ∃ k, key = .int k
    · obtain ⟨k, rfl⟩ := hint
      simp only [Table.shiftedDown, copy]
      rw [read_set_int _ (by omega), read_set_int _ (by omega)]
      by_cases hlast : k.toInt = (first + 1 : Nat) + count
      · rw [if_pos hlast, if_pos (by omega)]
      · have hlast' : ¬ k.toInt = first + (count + 1 : Nat) := by omega
        rw [if_neg hlast, if_neg hlast']
        by_cases hfirst : k.toInt = first
        · -- The first value is the one that the first copy brought.
          have hsucc : Int64.ofInt (k.toInt + 1) = Int64.ofNat (first + 1) := by
            rw [show k.toInt + 1 = (first + 1 : Nat) by omega]
            rfl
          rw [if_neg (by omega), if_pos hfirst, if_pos (by omega), hsucc]
        · by_cases hshift : (first + 1 : Nat) ≤ k.toInt ∧ k.toInt < (first + 1 : Nat) + count
          · have hsucc : (Int64.ofInt (k.toInt + 1)).toInt = k.toInt + 1 :=
              Int64.toInt_ofInt_of_le (by omega) (by omega)
            rw [if_pos hshift, if_neg (by omega), if_pos (by omega)]
          · rw [if_neg hshift, if_neg hfirst, if_neg (by omega)]
    · have hint' : ∀ k, key ≠ .int k := fun k hk ↦ hint ⟨k, hk⟩
      rw [Table.shiftedDown_of_not_int _ _ _ hint', Table.shiftedDown_of_not_int _ _ _ hint']
      exact read_set_of_not_int _ _ _ hint'

end Contents

end LuaData
