import LuaData.Proofs.Reachable

/-!
# Values added one after the other

A value that is stored under the next integer is added at the end of the array part, whatever size
that has (`store_appended`). So the tables `appended hint n value` are reached, up to and beyond the
limit of the array part. If there are more values than the hash part takes, a change that would make
them weak is refused, and the table comes to have weak values in its array part (`visits_refused`).
-/

namespace LuaData.Table

variable {hash : Value → UInt64} {hint n : Nat} {m : Moment} {value : Value}

/-- A new table in which a value was stored under the integers from one to `n`, one after the
other. -/
def appended (hint n : Nat) (value : Value) : Table :=
  { withHashSize hint with array := Array.replicate n value }

/-- The array part has the values that were added. -/
@[simp]
theorem size_array_appended (hint n : Nat) (value : Value) :
    (appended hint n value).array.size = n :=
  Array.size_replicate

/-- A value stored under the next integer is added at the end of the array part, whatever its
size. -/
theorem store_appended (hash : Value → UInt64) (hint : Nat) (c : Course) (hn : n + 1 < 2 ^ 63)
    (hvalue : value ≠ .nil) :
    (appended hint n value).store hash c (.int (Int64.ofNat (n + 1))) value =
      (.ok (), appended hint (n + 1) value) := by
  have hkey : (Int64.ofNat (n + 1)).toInt = n + 1 := toInt_ofNat_succ hn
  generalize Int64.ofNat (n + 1) = k at hkey ⊢
  have hsize : (appended hint n value).array.size = n := Array.size_replicate
  have hdestination : ∀ m : Moment,
      (appended hint n value).destination (m.context hash) (.int k) value = .arrayEnd := by
    intro m
    have hindex : (appended hint n value).arrayIndex? k = none := by
      rw [arrayIndex?, hkey, hsize, if_neg (by omega)]
    have hholds : (appended hint n value).hashHolds (m.context hash) (.int k) = false := by
      have hchain : ∀ b, (appended hint n value).chain b = [] := chain_replicate _ _ _ _ _ _
      simp [hashHolds, hchain, Arena.locate?]
    have hmode : (appended hint n value).mode.values = false := rfl
    simp [destination, hindex, hkey, hsize, Value.isNil_eq_false hvalue, hmode, hholds]
  have hpush : ∀ m : Moment, (appended hint n value).pushBack (m.context hash) value =
      .ok (appended hint (n + 1) value) := by
    intro m
    show pushBack _ (appended hint n value) value =
      .ok { withHashSize hint with array := Array.replicate (n + 1) value }
    rw [Array.replicate_succ]
    rfl
  rw [Table.store, storedKey_of_stored (Value.stored_int k)]
  simp [storeKey, tryStore, makeReady, place, hdestination, hpush, bind, Except.bind, pure,
    Except.pure]

/-- As many values can be stored as lead beyond the limit. -/
theorem reaches_appended (hash : Value → UInt64) (hint : Nat) (hvalue : value ≠ .nil)
    (hnamed : value.Named m.fresh) (hn : n ≤ 2 ^ maxArrayBits + 1) :
    Reaches hash hint m (appended hint n value) := by
  induction n with
  | zero => exact Reaches.new m
  | succ n ih =>
    have hsize : (appended hint n value).array.size ≤ 2 ^ 31 :=
      Array.size_replicate.trans_le (Nat.le_of_succ_le_succ hn)
    have hstored : Reaches hash hint m ((appended hint n value).store hash (.still m)
        (.int (Int64.ofNat (n + 1))) value).2 :=
      (ih (Nat.le_of_succ_le hn)).store (c := .still m) hsize (le_refl m)
        (Value.named_of_inline rfl _) hnamed
    have hlt : n + 1 < 2 ^ 63 := hn.trans_lt (by decide)
    rwa [store_appended hash hint (.still m) hlt hvalue] at hstored

/-- Every index of an array part that has the same value everywhere has an entry. -/
theorem length_arrayEntries {t : Table} (harray : t.array = Array.replicate n value)
    (hvalue : value ≠ .nil) : t.arrayEntries.length = n := by
  have hsome : ∀ e ∈ t.array.toList.zipIdx 1,
      ((if e.1.isNil then none else some (Value.int (Int64.ofNat e.2), e.1)) :
        Option (Value × Value)).isSome = true := by
    rintro ⟨v, i⟩ he
    have hv : v ∈ List.replicate n value := by
      rw [← Array.toList_replicate, ← harray]
      exact List.fst_mem_of_mem_zipIdx he
    rw [List.eq_of_mem_replicate hv, Value.isNil_eq_false hvalue]
    rfl
  rw [arrayEntries, List.length_filterMap_eq_countP, List.countP_eq_length.mpr hsome,
    List.length_zipIdx, harray, Array.length_toList, Array.size_replicate]

/-- It has at least as many keys. -/
theorem le_keyCount {t : Table} (ctx : Context) (harray : t.array = Array.replicate n value)
    (hvalue : value ≠ .nil) : n ≤ t.keyCount ctx := by
  rw [keyCount, entries, List.length_append, length_arrayEntries harray hvalue]
  exact Nat.le_add_right _ _

/-- If more values were added than the hash part takes, they cannot be made weak. -/
theorem setMode_of_replicate {t : Table} (ctx : Context)
    (harray : t.array = Array.replicate n value) (hvalue : value ≠ .nil)
    (hlarge : 2 ^ maxHashBits < n) (hn : n ≤ 2 ^ 31) {mode : WeakMode}
    (hvalues : mode.values = true) (hne : mode ≠ t.mode) :
    t.setMode ctx mode = .error .tableOverflow :=
  setMode_eq_tableOverflow (harray ▸ Array.size_replicate.trans_le hn) hvalues hne
    (hlarge.trans_le (le_keyCount ctx harray hvalue))

/-- The refused change leaves weak values in the array part. -/
theorem visits_refused (hash : Value → UInt64) (hint : Nat) (hvalue : value ≠ .nil)
    (hnamed : value.Named m.fresh) (hlarge : 2 ^ maxHashBits < n) (hn : n ≤ 2 ^ 31)
    {mode : WeakMode} (hvalues : mode.values = true) :
    Visits hash hint false m { appended hint n value with mode } := by
  have hreaches := reaches_appended hash hint hvalue hnamed (Nat.le_succ_of_le hn)
  have hne : mode ≠ (appended hint n value).mode := by
    rintro rfl
    cases hvalues
  have hrefused := setMode_of_replicate (m.context hash) rfl hvalue hlarge hn hvalues hne
  exact hreaches.visits.refused rfl (le_refl m) hrefused

end LuaData.Table
