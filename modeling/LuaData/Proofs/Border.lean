import LuaData.Proofs.Entries
import LuaData.Table.Length

/-!
# The length of a table

The searches behind `Table.length` keep a key that is present below one that is absent. So the
length leaves room for one more integer key (`Sound.length_lt`), and where it is the size of the
array part the key after it is absent (`Sound.getInt_size_eq_nil`).
-/

namespace LuaData.Table

/-- Halving the gap ends at a key before an absent one. -/
theorem bisect_spec (present : Nat → Bool) (low high : Nat) (hlt : low < high)
    (hhigh : present high = false) :
    low ≤ bisect present low high ∧ bisect present low high < high ∧
      present (bisect present low high + 1) = false := by
  fun_induction bisect present low high with
  | case1 low high hgap middle hpresent ih =>
    obtain ⟨hle, hlt', habsent⟩ := ih (by omega) hhigh
    exact ⟨by omega, hlt', habsent⟩
  | case2 low high hgap middle hmiddle ih =>
    obtain ⟨hle, hlt', habsent⟩ := ih (by omega) (by simpa using hmiddle)
    exact ⟨hle, by omega, habsent⟩
  | case3 low high hgap =>
    have hhigh' : low + 1 = high := by omega
    exact ⟨Nat.le_refl _, hlt, hhigh' ▸ hhigh⟩

/-- Doubling a key ends at an absent one. -/
theorem gallop_spec (present : Nat → Bool) (low high : Nat) (hlt : low < high)
    (hhigh : high < 2 ^ 63 - 1) {l h : Nat} (hgallop : gallop present low high = some (l, h)) :
    low ≤ l ∧ l < h ∧ h < 2 ^ 63 - 1 ∧ present h = false := by
  fun_induction gallop present low high with
  | case1 low high hpresent hbound ih =>
    obtain ⟨hle, hrest⟩ := ih (by omega) (by omega) hgallop
    exact ⟨by omega, hrest⟩
  | case2 low high hpresent hbound => cases hgallop
  | case3 low high habsent =>
    cases hgallop
    exact ⟨Nat.le_refl _, hlt, hhigh, by simpa using habsent⟩

/-- Counting keys ends at an absent one, or where it has to. -/
theorem countFrom_spec (present : Nat → Bool) (start fuel : Nat) :
    countFrom present start fuel ≤ fuel ∧
      (countFrom present start fuel < fuel →
        present (start + countFrom present start fuel) = false) := by
  induction fuel generalizing start with
  | zero => exact ⟨Nat.le_refl _, fun h ↦ absurd h (Nat.lt_irrefl _)⟩
  | succ fuel ih =>
    unfold countFrom
    split
    · obtain ⟨hle, habsent⟩ := ih (start + 1)
      refine ⟨by omega, fun hlt ↦ ?_⟩
      have := habsent (by omega)
      rwa [show start + 1 + countFrom present (start + 1) fuel =
        start + (countFrom present (start + 1) fuel + 1) by omega] at this
    · rename_i habsent
      exact ⟨Nat.zero_le _, fun _ ↦ by simpa using habsent⟩

/-- Counting up to an absent key does not depend on how far it may go beyond that. -/
theorem countFrom_eq_of_lt {present : Nat → Bool} {start j fuel fuel' : Nat}
    (habsent : present (start + j) = false) (hfuel : j < fuel) (hfuel' : j < fuel') :
    countFrom present start fuel = countFrom present start fuel' := by
  induction j generalizing start fuel fuel' with
  | zero =>
    obtain ⟨fuel, rfl⟩ := Nat.exists_eq_succ_of_ne_zero (Nat.ne_of_gt hfuel)
    obtain ⟨fuel', rfl⟩ := Nat.exists_eq_succ_of_ne_zero (Nat.ne_of_gt hfuel')
    have hstart : present start = false := habsent
    simp only [countFrom, hstart, Bool.false_eq_true, if_false]
  | succ j ih =>
    obtain ⟨fuel, rfl⟩ := Nat.exists_eq_succ_of_ne_zero (Nat.ne_zero_of_lt hfuel)
    obtain ⟨fuel', rfl⟩ := Nat.exists_eq_succ_of_ne_zero (Nat.ne_zero_of_lt hfuel')
    have hnext : present (start + 1 + j) = false := by
      rw [← habsent]
      congr 1
      omega
    simp only [countFrom, ih hnext (Nat.lt_of_succ_lt_succ hfuel) (Nat.lt_of_succ_lt_succ hfuel')]

namespace Sound

variable {hash : Value → UInt64} {m : Moment} {t : Table}

/-- Where no key is present there is nil. -/
theorem getInt_eq_nil_of_hasInt {ctx : Context} {n : Nat} (h : t.hasInt ctx n = false) :
    t.getInt ctx (Int64.ofNat n) = .nil := by
  by_contra hne
  rw [hasInt, Value.isNil_eq_false hne] at h
  cases h

/-- A border beyond the array part is small, and if it is the end of the array part then the next
key is absent. -/
theorem hashBorder_spec (hs : t.Sound hash m) (hsize : t.array.size ≤ 2 ^ 31) (ctx : Context) :
    t.hashBorder ctx + 1 < 2 ^ 63 ∧
      (t.hashBorder ctx = t.array.size → t.hasInt ctx (t.array.size + 1) = false) := by
  unfold hashBorder
  cases hgallop : gallop (t.hasInt ctx) t.array.size (t.array.size + 1) with
  | some bounds =>
    obtain ⟨low, high⟩ := bounds
    obtain ⟨hle, hlt, hhigh, habsent⟩ :=
      gallop_spec _ _ _ (Nat.lt_succ_self _) (by omega) hgallop
    obtain ⟨hlow, hborder, hnext⟩ := bisect_spec (t.hasInt ctx) low high hlt habsent
    refine ⟨by show bisect _ _ _ + 1 < _; omega, fun heq ↦ ?_⟩
    rw [← heq]
    exact hnext
  | none =>
    have hslots := hs.size_le_names
    obtain ⟨hle, habsent⟩ :=
      countFrom_spec (t.hasInt ctx) 1 (t.array.size + t.arena.slots.size + 1)
    refine ⟨by show countFrom _ _ _ + 1 < _; omega, fun heq ↦ ?_⟩
    have heq' : countFrom (t.hasInt ctx) 1 (t.array.size + t.arena.slots.size + 1) =
      t.array.size := heq
    have := habsent (by omega)
    rwa [heq', Nat.add_comm] at this

/-- The length leaves room for another integer key. -/
theorem length_lt (hs : t.Sound hash m) (hsize : t.array.size ≤ 2 ^ 31) (ctx : Context) :
    t.length ctx + 1 < 2 ^ 63 := by
  unfold Table.length
  split
  · rename_i hlast
    simp only [Bool.and_eq_true, decide_eq_true_eq] at hlast
    obtain ⟨hpos, hnil⟩ := hlast
    have := (bisect_spec (fun n ↦ !(t.array.getD (n - 1) .nil).isNil) 0 t.array.size hpos
      (by simpa using hnil)).2.1
    omega
  · split
    · omega
    · exact (hs.hashBorder_spec hsize ctx).1

/-- Where the length is the size of the array part, the next key is absent. -/
theorem getInt_size_eq_nil (hs : t.Sound hash m) (hsize : t.array.size ≤ 2 ^ 31) {ctx : Context}
    (hlength : t.length ctx = t.array.size) :
    t.getInt ctx (Int64.ofNat (t.array.size + 1)) = .nil := by
  unfold Table.length at hlength
  split at hlength
  · rename_i hlast
    simp only [Bool.and_eq_true, decide_eq_true_eq] at hlast
    obtain ⟨hpos, hnil⟩ := hlast
    have := (bisect_spec (fun n ↦ !(t.array.getD (n - 1) .nil).isNil) 0 t.array.size hpos
      (by simpa using hnil)).2.1
    omega
  · split at hlength
    · rename_i hlive
      have hnone : t.arrayIndex? (Int64.ofNat (t.array.size + 1)) = none := by
        unfold arrayIndex?
        rw [Int64.toInt_ofNat_of_lt (by omega)]
        exact if_neg (by omega)
      rw [getInt, hnone]
      exact hs.getFromHash_of_live_eq_zero hlive ctx _
    · exact getInt_eq_nil_of_hasInt ((hs.hashBorder_spec hsize ctx).2 hlength)

end Sound

/-- A new table has no values. -/
theorem get_withHashSize (ctx : Context) (hint : Nat) (key : Value) :
    (withHashSize hint).get ctx key = .nil := by
  cases hkey : key.key? with
  | none => exact get_of_key?_none _ _ hkey
  | some k =>
    have hindex : (withHashSize hint).index? k = none := by
      cases h : (withHashSize hint).index? k with
      | none => rfl
      | some i =>
        obtain ⟨_, -, -, hlt⟩ := index?_eq_some_iff.mp h
        exact absurd hlt (Nat.not_lt_zero i)
    rw [get_of_key?_some _ _ hkey, hindex]
    exact (sound_withHashSize ctx.hash .origin hint).getFromHash_of_live_eq_zero rfl _ k

end LuaData.Table
