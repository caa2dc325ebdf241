import LuaData.Json.Convert
import LuaData.Proofs.Plain
import LuaData.Proofs.Traversal

/-!
# Tables that are lists

A table is a list of length `n` if its keys are exactly `1, 2, …, n`. The length of a table is a
border (`Sound.isBorder_length`), so it is `n` for such a list; counting the keys then tells whether
there are others. `Sound.listLength?_eq_some_iff` says that `Table.listLength?` is right about which
tables are lists, in whatever parts of the table the keys are.
-/

namespace LuaData

/-- Small naturals are different as integer keys. -/
theorem Value.int_ofNat_inj {i j : Nat} (hi : i < 2 ^ 63) (hj : j < 2 ^ 63)
    (h : Value.int (Int64.ofNat i) = .int (Int64.ofNat j)) : i = j := by
  have heq : Int64.ofNat i = Int64.ofNat j := by simpa using h
  have htoInt := congrArg Int64.toInt heq
  rw [Int64.toInt_ofNat_of_lt hi, Int64.toInt_ofNat_of_lt hj] at htoInt
  omega

namespace Table

variable {hash : Value → UInt64} {m : Moment} {t : Table} {key : Value} {n : Nat}

/-- The keys of the table are exactly `1, 2, …, n`. -/
def IsList (ctx : Context) (t : Table) (n : Nat) : Prop :=
  ∀ key, t.get ctx key ≠ .nil ↔ ∃ i < n, key.normal? = some (.int (Int64.ofNat (i + 1)))

/-- The integers from one on, as keys. -/
def listKeys (n : Nat) : List Value :=
  (List.range n).map fun i ↦ .int (Int64.ofNat (i + 1))

/-- The keys of a list are different. -/
theorem listKeys_nodup (hn : n < 2 ^ 63) : (listKeys n).Nodup := by
  refine (List.nodup_map_iff_inj_on List.nodup_range).mpr fun i hi j hj heq ↦ ?_
  rw [List.mem_range] at hi hj
  exact Nat.succ.inj (Value.int_ofNat_inj (by omega) (by omega) heq)

/-- The number of keys of a list. -/
theorem length_listKeys (n : Nat) : (listKeys n).length = n := by
  rw [listKeys, List.length_map, List.length_range]

/-! ## Borders -/

/-- A number that is present, or zero, and after which comes an absent one. -/
structure IsBorder (present : Nat → Bool) (n : Nat) : Prop where
  last : n = 0 ∨ present n = true
  next : present (n + 1) = false

/-- Halving the gap above a present key, or zero, ends at one. -/
theorem bisect_present (present : Nat → Bool) (low high : Nat)
    (hlow : low = 0 ∨ present low = true) :
    bisect present low high = 0 ∨ present (bisect present low high) = true := by
  fun_induction bisect present low high with
  | case1 low high hgap middle hpresent ih => exact ih (.inr hpresent)
  | case2 low high hgap middle habsent ih => exact ih hlow
  | case3 low high hgap => exact hlow

/-- Doubling starts the gap at a present key, or zero. -/
theorem gallop_present (present : Nat → Bool) (low high : Nat)
    (hlow : low = 0 ∨ present low = true) {l h : Nat}
    (hgallop : gallop present low high = some (l, h)) : l = 0 ∨ present l = true := by
  fun_induction gallop present low high with
  | case1 low high hpresent hbound ih => exact ih (.inr hpresent) hgallop
  | case2 low high hpresent hbound => cases hgallop
  | case3 low high habsent =>
    cases hgallop
    exact hlow

/-- The keys that are counted are present. -/
theorem countFrom_present (present : Nat → Bool) (start fuel i : Nat)
    (hi : i < countFrom present start fuel) : present (start + i) = true := by
  induction fuel generalizing start i with
  | zero => exact absurd hi (Nat.not_lt_zero i)
  | succ fuel ih =>
    unfold countFrom at hi
    split at hi
    · rename_i hpresent
      cases i with
      | zero => exact hpresent
      | succ i =>
        have hnext := ih (start + 1) i (by omega)
        rwa [Nat.add_right_comm, Nat.add_assoc] at hnext
    · exact absurd hi (Nat.not_lt_zero i)

/-- Halving a gap with a border in it ends at a border. -/
theorem isBorder_bisect (present : Nat → Bool) {low high : Nat} (hlt : low < high)
    (hlow : low = 0 ∨ present low = true) (hhigh : present high = false) :
    IsBorder present (bisect present low high) :=
  ⟨bisect_present present low high hlow, (bisect_spec present low high hlt hhigh).2.2⟩

/-- Where the integers from one on are present up to a number, that is the only border. -/
theorem IsBorder.eq_of_run {present : Nat → Bool} {count : Nat} (h : IsBorder present n)
    (hlt : n + 1 < 2 ^ 63)
    (hrun : ∀ k, 0 < k → k < 2 ^ 63 → (present k = true ↔ k ≤ count)) : n = count := by
  have hnext : ¬ n + 1 ≤ count := by
    rw [← hrun (n + 1) (Nat.succ_pos n) hlt, h.next]
    exact nofun
  rcases h.last with hzero | hlast
  · omega
  · rcases Nat.eq_zero_or_pos n with hzero | hpos
    · omega
    · have := (hrun n hpos (by omega)).mp hlast
      omega

/-- An integer key is present if it has a value. -/
theorem hasInt_eq_true_iff {ctx : Context} :
    t.hasInt ctx n = true ↔ t.get ctx (.int (Int64.ofNat n)) ≠ .nil := by
  show (!(t.get ctx (.int (Int64.ofNat n))).isNil) = true ↔ _
  cases t.get ctx (.int (Int64.ofNat n)) <;> simp [Value.isNil]

/-- Within the array part the integer keys are read there. -/
theorem hasInt_of_le {ctx : Context} (hsize : t.array.size ≤ 2 ^ 62) (hpos : 0 < n)
    (hn : n ≤ t.array.size) : t.hasInt ctx n = !(t.array.getD (n - 1) .nil).isNil := by
  have hindex : t.index? (.int (Int64.ofNat n)) = some (n - 1) := by
    refine index?_eq_some_iff.mpr ⟨_, rfl, ?_, by omega⟩
    rw [Int64.toInt_ofNat_of_lt (by omega)]
    omega
  have hindex' : t.arrayIndex? (Int64.ofNat n) = some (n - 1) := hindex
  rw [hasInt, getInt, hindex']

/-- An array part whose last place is empty has a border, which halving finds. -/
theorem isBorder_bisect_array {ctx : Context} (hsize : t.array.size ≤ 2 ^ 62)
    (hpos : 0 < t.array.size) (hnil : (t.array.getD (t.array.size - 1) .nil).isNil = true) :
    IsBorder (t.hasInt ctx)
        (bisect (fun n ↦ !(t.array.getD (n - 1) .nil).isNil) 0 t.array.size) ∧
      bisect (fun n ↦ !(t.array.getD (n - 1) .nil).isNil) 0 t.array.size < t.array.size := by
  have habsent : (!(t.array.getD (t.array.size - 1) .nil).isNil) = false := by
    rw [hnil]
    rfl
  have hborder := isBorder_bisect (fun n ↦ !(t.array.getD (n - 1) .nil).isNil) hpos (.inl rfl)
    habsent
  have hlt := (bisect_spec (fun n ↦ !(t.array.getD (n - 1) .nil).isNil) 0 _ hpos habsent).2.1
  generalize bisect _ 0 t.array.size = b at hborder hlt ⊢
  refine ⟨⟨?_, ?_⟩, hlt⟩
  · rcases Nat.eq_zero_or_pos b with hzero | hb
    · exact .inl hzero
    · rw [hasInt_of_le hsize hb (Nat.le_of_lt hlt)]
      exact hborder.last
  · rw [hasInt_of_le hsize (Nat.succ_pos b) hlt]
    exact hborder.next

namespace Sound

/-- The keys in any form have the values of their normal form. -/
theorem get_congr_normal? (hs : t.Sound hash m) (hhash : Value.RespectsEq hash)
    (hsize : t.array.size ≤ 2 ^ 62) {key' : Value} (h : key.normal? = key'.normal?) :
    t.get (m.context hash) key = t.get (m.context hash) key' := by
  have hsize' : t.array.size < 2 ^ 63 := by omega
  by_cases hnil : t.get (m.context hash) key = .nil
  · by_contra hne
    have hnil' : t.get (m.context hash) key' ≠ .nil := fun hnil' ↦ hne (hnil.trans hnil'.symm)
    have hentry := (hs.get_eq_iff_normal? hhash hsize' key' hnil').mp rfl
    rw [← h] at hentry
    exact hne ((hs.get_eq_iff_normal? hhash hsize' key hnil').mpr hentry)
  · have hentry := (hs.get_eq_iff_normal? hhash hsize' key hnil).mp rfl
    rw [h] at hentry
    exact ((hs.get_eq_iff_normal? hhash hsize' key' hnil).mpr hentry).symm

/-- The keys of a table are different. -/
theorem keys_nodup (hs : t.Sound hash m) (hsize : t.array.size < 2 ^ 63) :
    (t.keys (m.context hash)).Nodup := by
  rw [keys, List.Nodup, List.pairwise_map]
  refine (hs.entries_pairwise hsize).imp fun hne heq ↦ ?_
  exact hne (congrArg Value.content heq)

/-- A present integer is among the keys. -/
theorem int_mem_keys (hs : t.Sound hash m) (hhash : Value.RespectsEq hash)
    (hsize : t.array.size ≤ 2 ^ 62) {k : Int64} (h : t.get (m.context hash) (.int k) ≠ .nil) :
    .int k ∈ t.keys (m.context hash) := by
  obtain ⟨l, hmem, hnormal⟩ := (hs.get_eq_iff_normal? hhash (by omega) (.int k) h).mp rfl
  rw [Value.normal?_of_stored (hs.insertable hmem).stored, Value.normal?_int,
    Option.some.injEq] at hnormal
  rw [← Value.content_eq_int hnormal]
  exact List.mem_map_of_mem hmem

/-- Present integers are no more than there are keys. -/
theorem le_keyCount (hs : t.Sound hash m) (hhash : Value.RespectsEq hash)
    (hsize : t.array.size ≤ 2 ^ 62) (hn : n < 2 ^ 63)
    (h : ∀ i < n, t.hasInt (m.context hash) (i + 1) = true) :
    n ≤ t.keyCount (m.context hash) := by
  have hsubset : listKeys n ⊆ t.keys (m.context hash) := by
    intro k hk
    obtain ⟨i, hi, rfl⟩ := List.mem_map.mp hk
    exact hs.int_mem_keys hhash hsize (hasInt_eq_true_iff.mp (h i (List.mem_range.mp hi)))
  have hlength := (List.subperm_of_subset (listKeys_nodup hn) hsubset).length_le
  rwa [length_listKeys, keys, List.length_map] at hlength

/-- The entries of the hash part are no more than there are slots. -/
theorem length_hashEntries_le (hs : t.Sound hash m) :
    (t.hashEntries (m.context hash)).length ≤ t.arena.slots.size := by
  have hused : (t.hashEntries (m.context hash)).length ≤ t.arena.used := by
    rw [hashEntries_eq, ← hs.length_linked]
    exact List.length_filterMap_le _ _
  have hsize := hs.arena.used_add_length_free
  omega

/-- The keys are no more than there are places. -/
theorem keyCount_le (hs : t.Sound hash m) :
    t.keyCount (m.context hash) ≤ t.array.size + t.arena.slots.size := by
  have harray : t.arrayEntries.length ≤ t.array.size := by
    refine (List.length_filterMap_le _ _).trans (Nat.le_of_eq ?_)
    rw [List.length_zipIdx, Array.length_toList]
  have hhash := hs.length_hashEntries_le
  rw [keyCount, entries, List.length_append]
  omega

/-- The keys are no more than slots have names if none is an integer. -/
theorem keyCount_le_names (hs : t.Sound hash m)
    (hkeys : ∀ e ∈ t.entries (m.context hash), ∀ k, e.1 ≠ .int k) :
    t.keyCount (m.context hash) ≤ 2 ^ 32 := by
  have harray : t.arrayEntries = [] := by
    rw [List.eq_nil_iff_forall_not_mem]
    intro e he
    obtain ⟨i, -, hkey, -⟩ := mem_arrayEntries_iff.mp he
    exact hkeys e (List.mem_append_left _ he) _ hkey
  rw [keyCount, entries, harray, List.nil_append]
  exact hs.length_hashEntries_le.trans hs.size_le_names

/-- Counting the keys from one on stops at an absent key: there are not as many keys as it may
count. -/
theorem countFrom_lt (hs : t.Sound hash m) (hhash : Value.RespectsEq hash)
    (hsize : t.array.size ≤ 2 ^ 62) :
    countFrom (t.hasInt (m.context hash)) 1 (t.array.size + t.arena.slots.size + 1) <
      t.array.size + t.arena.slots.size + 1 := by
  have hslots := hs.size_le_names
  have hplaces := hs.keyCount_le
  have hle := (countFrom_spec (t.hasInt (m.context hash)) 1
    (t.array.size + t.arena.slots.size + 1)).1
  have hpresent := countFrom_present (t.hasInt (m.context hash)) 1
    (t.array.size + t.arena.slots.size + 1)
  generalize countFrom _ 1 _ = c at hle hpresent ⊢
  have hcount : c ≤ t.keyCount (m.context hash) := by
    refine hs.le_keyCount hhash hsize (by omega) fun i hi ↦ ?_
    rw [Nat.add_comm]
    exact hpresent i hi
  omega

/-- Behind an array part that is full to its end, the hash part has a border. -/
theorem isBorder_hashBorder (hs : t.Sound hash m) (hhash : Value.RespectsEq hash)
    (hsize : t.array.size ≤ 2 ^ 62)
    (hfull : t.array.size = 0 ∨ t.hasInt (m.context hash) t.array.size = true) :
    IsBorder (t.hasInt (m.context hash)) (t.hashBorder (m.context hash)) ∧
      t.hashBorder (m.context hash) + 1 < 2 ^ 63 := by
  have hslots := hs.size_le_names
  unfold hashBorder
  cases hgallop : gallop (t.hasInt (m.context hash)) t.array.size (t.array.size + 1) with
  | some bounds =>
    obtain ⟨low, high⟩ := bounds
    obtain ⟨-, hlt, hhigh, habsent⟩ :=
      gallop_spec _ _ _ (Nat.lt_succ_self _) (by omega) hgallop
    have hlow := gallop_present _ _ _ hfull hgallop
    have hborder := (bisect_spec (t.hasInt (m.context hash)) low high hlt habsent).2.1
    refine ⟨isBorder_bisect _ hlt hlow habsent, ?_⟩
    show bisect _ low high + 1 < 2 ^ 63
    omega
  | none =>
    have hlt := hs.countFrom_lt hhash hsize
    show IsBorder _ (countFrom _ 1 _) ∧ countFrom _ 1 _ + 1 < 2 ^ 63
    have habsent := (countFrom_spec (t.hasInt (m.context hash)) 1
      (t.array.size + t.arena.slots.size + 1)).2 hlt
    have hpresent := countFrom_present (t.hasInt (m.context hash)) 1
      (t.array.size + t.arena.slots.size + 1)
    generalize countFrom _ 1 _ = c at hlt habsent hpresent ⊢
    refine ⟨⟨?_, ?_⟩, by omega⟩
    · rcases Nat.eq_zero_or_pos c with hzero | hpos
      · exact .inl hzero
      · have hprev := hpresent (c - 1) (by omega)
        rw [show 1 + (c - 1) = c by omega] at hprev
        exact .inr hprev
    · rwa [Nat.add_comm] at habsent

/-- The length of a table is a border. -/
theorem isBorder_length (hs : t.Sound hash m) (hhash : Value.RespectsEq hash)
    (hsize : t.array.size ≤ 2 ^ 62) :
    IsBorder (t.hasInt (m.context hash)) (t.length (m.context hash)) ∧
      t.length (m.context hash) + 1 < 2 ^ 63 := by
  unfold Table.length
  split
  · rename_i hlast
    simp only [Bool.and_eq_true, decide_eq_true_eq] at hlast
    obtain ⟨hborder, hlt⟩ := isBorder_bisect_array hsize hlast.1 hlast.2
    exact ⟨hborder, by omega⟩
  · rename_i hlast
    -- The array part is full to its end, and the border is there or in the hash part.
    have hfull : t.array.size = 0 ∨ t.hasInt (m.context hash) t.array.size = true := by
      rcases Nat.eq_zero_or_pos t.array.size with hzero | hpos
      · exact .inl hzero
      · rw [hasInt_of_le hsize hpos (Nat.le_refl _)]
        exact .inr (by simpa [hpos] using hlast)
    split
    · rename_i hlive
      refine ⟨⟨hfull, ?_⟩, by omega⟩
      have hnil : t.get (m.context hash) (.int (Int64.ofNat (t.array.size + 1))) = .nil := by
        rw [get_size_succ _ _ (by omega)]
        exact hs.getFromHash_of_live_eq_zero hlive _ _
      rw [Bool.eq_false_iff, ne_eq, hasInt_eq_true_iff, not_not]
      exact hnil
    · exact hs.isBorder_hashBorder hhash hsize hfull

/-- The entries of a list are as many as it is long. -/
theorem keyCount_of_isList (hs : t.Sound hash m) (hhash : Value.RespectsEq hash)
    (hsize : t.array.size ≤ 2 ^ 62) (h : t.IsList (m.context hash) n) :
    n < 2 ^ 63 ∧ t.keyCount (m.context hash) = n := by
  have hpresent : ∀ i < n, t.hasInt (m.context hash) (i + 1) = true := by
    intro i hi
    exact hasInt_eq_true_iff.mpr ((h _).mpr ⟨i, hi, rfl⟩)
  have hplaces := hs.keyCount_le
  have hslots := hs.size_le_names
  have hn : n < 2 ^ 63 := by
    -- There are not as many places as that.
    by_contra hlarge
    have := hs.le_keyCount hhash hsize (n := 2 ^ 62 + 2 ^ 32 + 1) (by omega)
      fun i hi ↦ hpresent i (by omega)
    omega
  refine ⟨hn, Nat.le_antisymm ?_ (hs.le_keyCount hhash hsize hn hpresent)⟩
  have hsubset : t.keys (m.context hash) ⊆ listKeys n := by
    intro k hk
    obtain ⟨⟨l, v⟩, hmem, rfl⟩ := List.mem_map.mp hk
    have hentry := hs.insertable hmem
    have hget := (hs.get_eq_iff_normal? hhash (by omega) l hentry.ne_nil).mpr ⟨l, hmem, rfl⟩
    obtain ⟨i, hi, hnormal⟩ := (h l).mp (hget ▸ hentry.ne_nil)
    rw [Value.normal?_of_stored hentry.stored, Option.some.injEq] at hnormal
    rw [Value.content_eq_int hnormal]
    exact List.mem_map_of_mem (List.mem_range.mpr hi)
  have hlength := (List.subperm_of_subset (hs.keys_nodup (by omega)) hsubset).length_le
  rwa [length_listKeys, keys, List.length_map] at hlength

/-- The keys of a table are found to be `1, 2, …, n` exactly if they are. -/
theorem listLength?_eq_some_iff (hs : t.Sound hash m) (hhash : Value.RespectsEq hash)
    (hsize : t.array.size ≤ 2 ^ 62) :
    t.listLength? (m.context hash) = some n ↔ t.IsList (m.context hash) n := by
  obtain ⟨hborder, hlt⟩ := hs.isBorder_length hhash hsize
  have hsize' : t.array.size < 2 ^ 63 := by omega
  unfold listLength?
  simp only [List.all_eq_true, List.mem_range]
  generalize t.length (m.context hash) = len at hborder hlt ⊢
  constructor
  · intro h
    split at h
    · rename_i hlist
      obtain ⟨hcount, hall⟩ := hlist
      obtain rfl : len = n := Option.some.inj h
      -- The integers are as many as there are keys, so they are all of them.
      have hsubset : listKeys len ⊆ t.keys (m.context hash) := by
        intro k hk
        obtain ⟨i, hi, rfl⟩ := List.mem_map.mp hk
        exact hs.int_mem_keys hhash hsize (hasInt_eq_true_iff.mp (hall i (List.mem_range.mp hi)))
      have hperm : (listKeys len).Perm (t.keys (m.context hash)) := by
        refine (List.subperm_of_subset (listKeys_nodup (by omega)) hsubset).perm_of_length_le ?_
        rw [length_listKeys, keys, List.length_map]
        exact Nat.le_of_eq hcount
      intro key
      constructor
      · intro hne
        obtain ⟨l, hmem, hnormal⟩ := (hs.get_eq_iff_normal? hhash hsize' key hne).mp rfl
        have hl : l ∈ listKeys len := hperm.mem_iff.mpr (List.mem_map_of_mem hmem)
        obtain ⟨i, hi, rfl⟩ := List.mem_map.mp hl
        exact ⟨i, List.mem_range.mp hi, hnormal.symm⟩
      · rintro ⟨i, hi, hnormal⟩
        rw [hs.get_congr_normal? hhash hsize (hnormal.trans (Value.normal?_int _).symm)]
        exact hasInt_eq_true_iff.mp (hall i hi)
    · cases h
  · intro h
    obtain ⟨hn, hcount⟩ := hs.keyCount_of_isList hhash hsize h
    have hpresent : ∀ k, 0 < k → k < 2 ^ 63 →
        (t.hasInt (m.context hash) k = true ↔ k ≤ n) := by
      intro k hpos hk
      rw [hasInt_eq_true_iff, h]
      constructor
      · rintro ⟨i, hi, hnormal⟩
        have := Value.int_ofNat_inj hk (by omega) (Option.some.inj hnormal)
        omega
      · intro hle
        refine ⟨k - 1, by omega, ?_⟩
        rw [Nat.sub_add_cancel hpos, Value.normal?_int]
    have hlen : len = n := hborder.eq_of_run hlt hpresent
    rw [if_pos, hlen]
    rw [hlen]
    exact ⟨hcount, fun i hi ↦ (hpresent (i + 1) (by omega) (by omega)).mpr hi⟩

end Sound

end Table

end LuaData
