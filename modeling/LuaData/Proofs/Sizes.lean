import Mathlib.Data.List.Range
import Mathlib.Order.Bounds.Basic
import LuaData.Table.Resize

/-!
# The size of the array part

`Table.arraySizeFor` chooses the size of the array part from the integer keys in use and says how
many of them will lie in it. `arraySizeFor_count` says that it counts right, so that the rest of the
entries is what the hash part must hold. `arraySizeFor_isGreatest` and `hashSizeFor_isLeast` say
which sizes are chosen.
-/

namespace LuaData.Table

/-- The binary logarithm, rounded up. -/
theorem ceilLog2_le_iff (n e : Nat) : ceilLog2 n ≤ e ↔ n ≤ 2 ^ e := by
  unfold ceilLog2
  split
  · have : 1 ≤ 2 ^ e := Nat.one_le_two_pow
    omega
  · rw [Nat.succ_le_iff, Nat.log2_lt (by omega)]
    omega

/-- The ranges count the numbers by their logarithm. -/
theorem getElem?_foldl_modify (ns : List Nat) (counts : Array Nat) (e : Nat) :
    (ns.foldl (fun counts n ↦ counts.modify (ceilLog2 n) (· + 1)) counts)[e]? =
      counts[e]?.map (· + ns.countP fun n ↦ ceilLog2 n = e) := by
  induction ns generalizing counts with
  | nil => simp
  | cons n ns ih =>
    rw [List.foldl_cons, ih, Array.getElem?_modify]
    cases hcount : counts[e]? with
    | none => simp
    | some count =>
      by_cases he : ceilLog2 n = e
      · simp only [he, if_true, Option.map_some, decide_true, List.countP_cons_of_pos]
        congr 1
        omega
      · simp [he]

/-- The number of keys in each range. -/
theorem rangeCounts_toList (ns : List Nat) :
    (rangeCounts ns).toList =
      (List.range (maxArrayBits + 1)).map fun e ↦ ns.countP fun n ↦ ceilLog2 n = e := by
  apply List.ext_getElem?
  intro e
  rw [Array.getElem?_toList, rangeCounts, getElem?_foldl_modify, Array.getElem?_replicate,
    List.getElem?_map]
  by_cases he : e < maxArrayBits + 1
  · rw [if_pos he, List.getElem?_range he]
    simp
  · rw [if_neg he, List.getElem?_eq_none (by simpa using he)]
    rfl

/-- The numbers up to a power of two are those of the ranges up to it. -/
theorem countP_le_pow (ns : List Nat) (e : Nat) :
    (ns.countP fun n ↦ n ≤ 2 ^ e) =
      (ns.countP fun n ↦ ceilLog2 n < e) + ns.countP fun n ↦ ceilLog2 n = e := by
  induction ns with
  | nil => rfl
  | cons n ns ih =>
    have hiff := ceilLog2_le_iff n e
    simp only [List.countP_cons, ih, decide_eq_true_eq]
    split <;> split <;> split <;> omega

/-- The search for a size keeps its count. -/
theorem optimalSize_count (ns : List Nat) (total : Nat) (k e : Nat) (best : Nat × Nat)
    (he : e + k = maxArrayBits + 1) (hbest : best.1 ≤ 2 ^ maxArrayBits)
    (hcount : best.2 = ns.countP fun n ↦ n ≤ best.1) :
    let r := optimalSize total
      ((List.range' e k).map fun e ↦ ns.countP fun n ↦ ceilLog2 n = e) (2 ^ e)
      (ns.countP fun n ↦ ceilLog2 n < e) best
    r.1 ≤ 2 ^ maxArrayBits ∧ r.2 = ns.countP fun n ↦ n ≤ r.1 := by
  induction k generalizing e best with
  | zero => exact ⟨hbest, hcount⟩
  | succ k ih =>
    simp only [List.range'_succ, List.map_cons, optimalSize]
    split
    · exact ⟨hbest, hcount⟩
    · have hlt : (ns.countP fun n ↦ ceilLog2 n < e + 1) = ns.countP fun n ↦ n ≤ 2 ^ e := by
        simp only [Nat.lt_succ_iff, ceilLog2_le_iff]
      rw [← countP_le_pow, ← Nat.pow_succ', ← hlt]
      refine ih (e + 1) _ (by omega) ?_ ?_
      · split
        · exact Nat.pow_le_pow_right (by decide) (by omega)
        · exact hbest
      · split
        · exact hlt
        · exact hcount

/-- The size for a set of keys is within the limit, and comes with the number of keys in it. -/
theorem arraySizeFor_count {ns : List Nat} (h : 0 ∉ ns) :
    (arraySizeFor ns).1 ≤ 2 ^ maxArrayBits ∧
      (arraySizeFor ns).2 = ns.countP fun n ↦ n ≤ (arraySizeFor ns).1 := by
  have hzero : 0 = ns.countP fun n ↦ n ≤ 0 := by
    symm
    rw [List.countP_eq_zero]
    intro n hn hle
    have : n = 0 := by simpa using hle
    exact h (this ▸ hn)
  have hcount := optimalSize_count ns ns.length (maxArrayBits + 1) 0 (0, 0) (Nat.zero_add _)
    (Nat.zero_le _) hzero
  simpa [arraySizeFor, rangeCounts_toList, List.range_eq_range'] using hcount

/-- The sizes that an array part may have if `count n` of the keys up to `n` are in use: none, or a
power of two, below the given one, of which more than half is in use. -/
def denseSizes (count : Nat → Nat) (bits : Nat) : Set Nat :=
  {n | n = 0 ∨ ∃ e < bits, n = 2 ^ e ∧ n < 2 * count n}

/-- The next power of two is the greatest size if more than half of it is in use. -/
theorem isGreatest_denseSizes_pow {count : Nat → Nat} {e : Nat} (h : 2 ^ e < 2 * count (2 ^ e)) :
    IsGreatest (denseSizes count (e + 1)) (2 ^ e) := by
  refine ⟨.inr ⟨e, Nat.lt_succ_self e, rfl, h⟩, fun n hn ↦ ?_⟩
  rcases hn with rfl | ⟨i, hi, rfl, -⟩
  · exact Nat.zero_le _
  · exact Nat.pow_le_pow_right (by decide) (Nat.le_of_lt_succ hi)

/-- Powers of two of which no more than half is in use add no size. -/
theorem denseSizes_eq_of_sparse {count : Nat → Nat} {e bits : Nat} (hle : e ≤ bits)
    (h : ∀ i, e ≤ i → i < bits → 2 * count (2 ^ i) ≤ 2 ^ i) :
    denseSizes count bits = denseSizes count e := by
  ext n
  refine or_congr_right ⟨?_, ?_⟩
  · intro ⟨i, hi, hn, hdense⟩
    rcases Nat.lt_or_ge i e with hlt | hge
    · exact ⟨i, hlt, hn, hdense⟩
    · have hsparse := h i hge hi
      rw [← hn] at hsparse
      omega
  · intro ⟨i, hi, hn, hdense⟩
    exact ⟨i, hi.trans_le hle, hn, hdense⟩

/-- The search keeps to the greatest size so far, and it ends early only where no greater one can
come. -/
theorem optimalSize_isGreatest (ns : List Nat) (k e : Nat) (best : Nat × Nat)
    (hbest : IsGreatest (denseSizes (fun n ↦ ns.countP fun l ↦ l ≤ n) e) best.1) :
    IsGreatest (denseSizes (fun n ↦ ns.countP fun l ↦ l ≤ n) (e + k))
      (optimalSize ns.length ((List.range' e k).map fun e ↦ ns.countP fun n ↦ ceilLog2 n = e)
        (2 ^ e) (ns.countP fun n ↦ ceilLog2 n < e) best).1 := by
  induction k generalizing e best with
  | zero => exact hbest
  | succ k ih =>
    simp only [List.range'_succ, List.map_cons, optimalSize]
    split
    · rename_i hfew
      -- All keys together are not more than half of this power, nor of any greater one.
      rwa [denseSizes_eq_of_sparse (Nat.le_add_right _ _)]
      intro i hi _
      have hcount : (ns.countP fun l ↦ l ≤ 2 ^ i) ≤ ns.length := List.countP_le_length
      have hpow : 2 ^ e ≤ 2 ^ i := Nat.pow_le_pow_right (by decide) hi
      omega
    · have hlt : (ns.countP fun n ↦ ceilLog2 n < e + 1) = ns.countP fun n ↦ n ≤ 2 ^ e := by
        simp only [Nat.lt_succ_iff, ceilLog2_le_iff]
      rw [← countP_le_pow, ← Nat.pow_succ', ← hlt, Nat.add_comm k 1, ← Nat.add_assoc]
      refine ih (e + 1) _ ?_
      split
      · rename_i hdense
        exact isGreatest_denseSizes_pow (by omega)
      · rename_i hsparse
        rwa [denseSizes_eq_of_sparse (Nat.le_succ e)]
        intro i hi hi'
        obtain rfl : i = e := by omega
        omega

/-- The size for a set of keys is the greatest power of two of which more than half is in use. -/
theorem arraySizeFor_isGreatest (ns : List Nat) :
    IsGreatest (denseSizes (fun n ↦ ns.countP fun l ↦ l ≤ n) (maxArrayBits + 1))
      (arraySizeFor ns).1 := by
  have hstart : IsGreatest (denseSizes (fun n ↦ ns.countP fun l ↦ l ≤ n) 0) 0 := by
    refine ⟨.inl rfl, fun n hn ↦ ?_⟩
    rcases hn with rfl | ⟨i, hi, -⟩
    · exact Nat.le_refl 0
    · exact absurd hi (Nat.not_lt_zero i)
  have hgreatest := optimalSize_isGreatest ns (maxArrayBits + 1) 0 (0, 0) hstart
  simpa [arraySizeFor, rangeCounts_toList, List.range_eq_range'] using hgreatest

/-- The size for a set of keys does not depend on their order. -/
theorem arraySizeFor_perm {ns ns' : List Nat} (h : ns.Perm ns') :
    arraySizeFor ns = arraySizeFor ns' := by
  unfold arraySizeFor
  simp only [rangeCounts_toList, h.length_eq, h.countP_eq]

/-- The hash part for a number of entries has a bucket for each. -/
theorem le_hashSizeFor (count : Nat) : count ≤ hashSizeFor count := by
  unfold hashSizeFor
  split
  · omega
  · exact ((ceilLog2_le_iff count _).mp (Nat.le_refl _)).trans (Nat.le_max_left _ _)

/-- Only a large number of entries needs a hash part beyond the limit. -/
theorem lt_of_lt_hashSizeFor {count : Nat} (h : 2 ^ maxHashBits < hashSizeFor count) :
    2 ^ maxHashBits < count := by
  by_contra hle
  have hlog := (ceilLog2_le_iff count maxHashBits).mpr (Nat.le_of_not_lt hle)
  have hpow : 2 ^ ceilLog2 count ≤ 2 ^ maxHashBits := Nat.pow_le_pow_right (by decide) hlog
  have hmin : minHashSize ≤ 2 ^ maxHashBits := by decide
  unfold hashSizeFor at h
  split at h
  · omega
  · exact absurd h (Nat.not_lt.mpr (Nat.max_le.mpr ⟨hpow, hmin⟩))

/-- The number of buckets for a number of entries is zero or a power of two. -/
theorem hashSizeFor_isPowerOfTwo (count : Nat) :
    hashSizeFor count = 0 ∨ (hashSizeFor count).isPowerOfTwo := by
  unfold hashSizeFor
  split
  · exact .inl rfl
  · refine .inr ?_
    rcases Nat.le_total (2 ^ ceilLog2 count) minHashSize with hle | hle
    · rw [Nat.max_eq_right hle]
      exact ⟨2, rfl⟩
    · rw [Nat.max_eq_left hle]
      exact ⟨_, rfl⟩

/-- The number of buckets for some entries is the least power of two that has one for each and is
not below the minimum. -/
theorem hashSizeFor_isLeast {count : Nat} (h : count ≠ 0) :
    IsLeast {n | n.isPowerOfTwo ∧ minHashSize ≤ n ∧ count ≤ n} (hashSizeFor count) := by
  have hsize : hashSizeFor count = max (2 ^ ceilLog2 count) minHashSize := if_neg h
  refine ⟨⟨?_, ?_, le_hashSizeFor count⟩, ?_⟩
  · rcases hashSizeFor_isPowerOfTwo count with hzero | hpow
    · have := le_hashSizeFor count
      omega
    · exact hpow
  · rw [hsize]
    exact Nat.le_max_right _ _
  · intro n ⟨⟨e, hn⟩, hmin, hcount⟩
    rw [hsize]
    refine Nat.max_le.mpr ⟨?_, hmin⟩
    rw [hn] at hcount ⊢
    exact Nat.pow_le_pow_right (by decide) ((ceilLog2_le_iff count e).mpr hcount)

end LuaData.Table
