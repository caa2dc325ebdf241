import LuaData.Proofs.ListTables
import LuaData.Proofs.Reachable

/-!
# What a rehash makes of a table

A rehash gives the array part the largest power of two of which more than half is in use and the
hash part the least one with room for the other keys, and puts each key where it belongs (`Layout`).
It counts the key that it was called for, so the write that called for it finds room: the recursion
of a write through a rehash (`WriteRun`) is never deeper than that. `Reaches.rehash_is_exact` says
both of every table that is reached.
-/

namespace LuaData

/-- Of two lists without repetitions, each has as many members of the other. -/
theorem countP_mem_comm_of_nodup {α : Type} [DecidableEq α] {l k : List α} (hl : l.Nodup)
    (hk : k.Nodup) : (l.countP fun a ↦ a ∈ k) = k.countP fun a ↦ a ∈ l := by
  rw [List.countP_eq_length_filter, List.countP_eq_length_filter]
  refine List.Perm.length_eq ((List.perm_ext_iff_of_nodup (hl.filter _) (hk.filter _)).mpr ?_)
  intro a
  simp only [List.mem_filter, decide_eq_true_eq]
  exact and_comm

namespace Table

variable {hash : Value → UInt64} {hint : Nat} {m n : Moment} {c : Course} {t u : Table}
  {key value : Value} {extra : Option Value}

/-! ## The sizes -/

/-- How many of the integers from one to `n` are keys of the table or the extra key. -/
def inUse (ctx : Context) (t : Table) (extra : Option Value) (n : Nat) : Nat :=
  (listKeys n).countP fun k ↦ t.get ctx k ≠ .nil ∨ extra = some k

/-- How many keys, with the extra key, are left to the hash part beside an array part of the given
size. -/
def hashDemand (ctx : Context) (t : Table) (extra : Option Value) (size : Nat) : Nat :=
  (t.keys ctx ++ extra.toList).countP fun k ↦ k ∉ listKeys size

/-- The size is right for the array part: it is zero if the values are weak, and else the largest
power of two of which more than half is in use, or zero if there is none. -/
def IsArraySize (ctx : Context) (t : Table) (extra : Option Value) (size : Nat) : Prop :=
  if t.mode.values then size = 0
  else IsGreatest {n | n = 0 ∨ ∃ e ≤ maxArrayBits, n = 2 ^ e ∧ n < 2 * t.inUse ctx extra n} size

/-- The keys that a rehash counts are those of the table and the extra key. -/
theorem rehashKeys_eq (ctx : Context) (t : Table) (extra : Option Value) :
    t.rehashKeys ctx extra = t.keys ctx ++ extra.toList := by
  rw [rehashKeys, keys, entries, List.map_append, List.append_assoc]

/-- The integers from one on as keys. -/
theorem mem_listKeys_iff {size : Nat} (hsize : size < 2 ^ 63) :
    key ∈ listKeys size ↔ ∃ k : Int64, key = .int k ∧ 1 ≤ k.toInt ∧ k.toInt ≤ size := by
  simp only [listKeys, List.mem_map, List.mem_range]
  constructor
  · intro h
    obtain ⟨i, hi, hkey⟩ := h
    have hint : (Int64.ofNat (i + 1)).toInt = (i + 1 : Nat) := Int64.toInt_ofNat_of_lt (by omega)
    exact ⟨_, hkey.symm, by omega, by omega⟩
  · intro h
    obtain ⟨k, hkey, hpos, hle⟩ := h
    refine ⟨(k.toInt - 1).toNat, by omega, ?_⟩
    rw [hkey]
    congr 2
    rw [← Int64.toInt_inj, Int64.toInt_ofNat_of_lt (by omega)]
    omega

/-- The keys that belong to the array part are the integers from one to its size. -/
theorem outside_eq_true_iff {size : Nat} (hsize : size ≤ 2 ^ maxArrayBits) (key : Value) :
    outside size key = true ↔ key ∉ listKeys size := by
  have hsize' : size ≤ 2 ^ 31 := hsize
  rw [mem_listKeys_iff (by omega)]
  by_cases hint : ∃ k, key = .int k
  · obtain ⟨k, rfl⟩ := hint
    have hcandidate : arrayCandidate? (.int k) =
        if 1 ≤ k.toInt ∧ k.toInt ≤ 2 ^ 31 then some k.toInt.toNat else none := rfl
    have hbounds : (∃ l : Int64, Value.int k = .int l ∧ 1 ≤ l.toInt ∧ l.toInt ≤ size) ↔
        1 ≤ k.toInt ∧ k.toInt ≤ size :=
      ⟨fun ⟨l, hl, h⟩ ↦ by cases hl; exact h, fun h ↦ ⟨k, rfl, h⟩⟩
    rw [outside, hcandidate, hbounds]
    split
    · simp only [Option.any_some, Bool.not_eq_true', decide_eq_false_iff_not]
      omega
    · simp only [Option.any_none, Bool.not_false, true_iff]
      omega
  · have hnone : arrayCandidate? key = none := by
      unfold arrayCandidate?
      split
      · rename_i k
        exact absurd ⟨k, rfl⟩ hint
      · rfl
    rw [outside, hnone]
    simp only [Option.any_none, Bool.not_false, true_iff]
    exact fun ⟨k, hk, _⟩ ↦ hint ⟨k, hk⟩

/-- The hash part is made for the keys that are left to it. -/
theorem newHashCount_eq_hashDemand (ctx : Context) (t : Table) (extra : Option Value) :
    t.newHashCount ctx extra = t.hashDemand ctx extra (t.newArraySize ctx extra) := by
  rw [newHashCount, hashDemand, rehashKeys_eq]
  refine List.countP_congr fun k _ ↦ ?_
  rw [outside_eq_true_iff (newArraySize_le ctx t extra), decide_eq_true_iff]

namespace Sound

/-- The integers that a rehash counts are those in use. -/
theorem countP_candidates (hs : t.Sound hash m) (hhash : Value.RespectsEq hash)
    (hsize : t.array.size ≤ 2 ^ 31)
    (habsent : ∀ key, extra = some key → t.get (m.context hash) key = .nil) {n : Nat}
    (hn : n ≤ 2 ^ maxArrayBits) :
    (((t.rehashKeys (m.context hash) extra).filterMap arrayCandidate?).countP fun l ↦ l ≤ n) =
      t.inUse (m.context hash) extra n := by
  have hn' : n ≤ 2 ^ 31 := hn
  -- The extra key is absent, so that no key is counted twice.
  have hpresent : ∀ k ∈ t.keys (m.context hash), t.get (m.context hash) k ≠ .nil := by
    intro k hk
    obtain ⟨⟨l, v⟩, hmem, rfl⟩ := List.mem_map.mp hk
    have hentry := hs.insertable hmem
    rw [(hs.get_eq_iff hhash (by omega) hentry.stored hentry.ne_nil).mpr ⟨l, hmem, rfl⟩]
    exact hentry.ne_nil
  have hnodup : (t.keys (m.context hash) ++ extra.toList).Nodup := by
    refine (hs.keys_nodup (by omega)).append ?_ ?_
    · cases extra <;> simp
    · intro k hk hextra
      exact hpresent k hk (habsent k (Option.mem_toList.mp hextra))
  calc (((t.rehashKeys (m.context hash) extra).filterMap arrayCandidate?).countP fun l ↦ l ≤ n)
    _ = (t.keys (m.context hash) ++ extra.toList).countP fun k ↦ k ∈ listKeys n := by
      rw [List.countP_filterMap, rehashKeys_eq]
      refine List.countP_congr fun k _ ↦ ?_
      rw [decide_eq_true_iff, ← not_iff_not, ← outside_eq_true_iff hn, outside]
      cases arrayCandidate? k <;> simp
    _ = (listKeys n).countP fun k ↦ k ∈ t.keys (m.context hash) ++ extra.toList :=
      countP_mem_comm_of_nodup hnodup (listKeys_nodup (by omega))
    _ = t.inUse (m.context hash) extra n := by
      refine List.countP_congr fun k hk ↦ ?_
      obtain ⟨i, -, rfl⟩ := List.mem_map.mp hk
      rw [decide_eq_true_iff, decide_eq_true_iff, List.mem_append, Option.mem_toList]
      exact or_congr_left ⟨hpresent _, hs.int_mem_keys hhash (by omega)⟩

/-- A rehash chooses the right size for the array part, also after a change of the mode. -/
theorem isArraySize_newArraySize (hs : t.Sound hash m) (hhash : Value.RespectsEq hash)
    (hsize : t.array.size ≤ 2 ^ 31)
    (habsent : ∀ key, extra = some key → t.get (m.context hash) key = .nil) (mode : WeakMode) :
    IsArraySize (m.context hash) { t with mode } extra
      (newArraySize (m.context hash) { t with mode } extra) := by
  unfold IsArraySize newArraySize
  split
  · rfl
  · -- Both count the same keys, for every power of two that is a size.
    convert arraySizeFor_isGreatest
      ((t.rehashKeys (m.context hash) extra).filterMap arrayCandidate?) using 1
    ext n
    refine or_congr_right (exists_congr fun e ↦ ?_)
    rw [Nat.lt_succ_iff]
    refine and_congr_right fun he ↦ and_congr_right fun hn ↦ ?_
    have hle : n ≤ 2 ^ maxArrayBits := hn ▸ Nat.pow_le_pow_right (by decide) he
    have hcount := hs.countP_candidates hhash hsize habsent hle
    show n < 2 * t.inUse (m.context hash) extra n ↔ _
    rw [← hcount]
    rfl

end Sound

/-! ## The layout -/

/-- The array part has the integers up to its size that are present. -/
theorem mem_arrayEntries_iff_get (ctx : Context) (hsize : t.array.size < 2 ^ 63) :
    (key, value) ∈ t.arrayEntries ↔
      key ∈ listKeys t.array.size ∧ value ≠ .nil ∧ t.get ctx key = value := by
  have hget : ∀ i < t.array.size,
      t.get ctx (.int (Int64.ofNat (i + 1))) = t.array.getD i .nil := by
    intro i hi
    rw [get_of_stored ctx t (Value.stored_int _), index?_of_lt hsize hi]
  rw [mem_arrayEntries_iff, listKeys, List.mem_map]
  constructor
  · intro h
    obtain ⟨i, hi, hkey, hvalue, hne⟩ := h
    refine ⟨⟨i, List.mem_range.mpr hi, hkey.symm⟩, hne, ?_⟩
    rw [hkey, hget i hi, hvalue]
  · intro h
    obtain ⟨⟨i, hi, hkey⟩, hne, hvalue⟩ := h
    rw [List.mem_range] at hi
    exact ⟨i, hi, hkey.symm, by rw [← hvalue, ← hkey, hget i hi], hne⟩

/-- What a rehash makes of the table `t`: the sizes of the parts of `u`, and where its keys are. -/
structure Layout (ctx : Context) (t : Table) (extra : Option Value) (u : Table) : Prop where
  array : t.IsArraySize ctx extra u.arrayCapacity
  no_hash : t.hashDemand ctx extra u.arrayCapacity = 0 → u.hashCapacity = 0
  /-- The hash part is the least power of two with a bucket for each key that is left to it. -/
  hash : t.hashDemand ctx extra u.arrayCapacity ≠ 0 →
    IsLeast {n | n.isPowerOfTwo ∧ minHashSize ≤ n ∧ t.hashDemand ctx extra u.arrayCapacity ≤ n}
      u.hashCapacity
  in_array : ∀ k v, (k, v) ∈ u.arrayEntries ↔
    k ∈ listKeys u.arrayCapacity ∧ v ≠ .nil ∧ t.get ctx k = v
  in_hash : ∀ k v, (k, v) ∈ u.hashEntries ctx → k ∉ listKeys u.arrayCapacity
  tombstones : u.tombstones = 0
  anchored : u.anchored = false

namespace Rebuilt

/-- A rebuilt table has the values of the old one, now and later. -/
theorem get_eq (h : Rebuilt hash m t t.mode extra u) (hs : t.Sound hash m)
    (hhash : Value.RespectsEq hash) (hle : m ≤ n) (key : Value) :
    u.get (n.context hash) key = t.get (n.context hash) key := by
  have hsame := (h.same_of_mode hs hhash).later hs h.sound h.mode_eq hhash hle
  cases hkey : key.key? with
  | none => rw [get_of_key?_none _ _ hkey, get_of_key?_none _ _ hkey]
  | some k =>
    rw [get_of_key? _ _ hkey, get_of_key? _ _ hkey]
    exact hsame k (Value.stored_of_key? hkey)

/-- The integers of the array part keep their values, also in a new mode: with weak values there is
no array part. -/
theorem get_eq_of_mem_listKeys {mode : WeakMode} (h : Rebuilt hash m t mode extra u) {k : Value}
    (hk : k ∈ listKeys u.array.size) :
    u.get (m.context hash) k = t.get (m.context hash) k := by
  obtain ⟨i, hi, rfl⟩ := List.mem_map.mp hk
  rw [h.values _ (Value.stored_int _)]
  refine if_pos (kept_int m.alive ?_ _ _)
  rw [Bool.eq_false_iff]
  intro hweak
  have hzero := h.sound.weak_values (h.mode_eq ▸ hweak)
  rw [hzero, List.mem_range] at hi
  exact Nat.not_lt_zero i hi

/-- A rebuilt table is laid out for the keys of the old one and the extra key. -/
theorem layout {mode : WeakMode} (h : Rebuilt hash m t mode extra u) (hs : t.Sound hash m)
    (hhash : Value.RespectsEq hash) (hsize : t.array.size ≤ 2 ^ 31)
    (habsent : ∀ key, extra = some key → t.get (m.context hash) key = .nil) :
    Layout (m.context hash) { t with mode } extra u := by
  have hcapacity : u.arrayCapacity = newArraySize (m.context hash) { t with mode } extra :=
    h.array_size
  have hbuckets : u.hashCapacity =
      hashSizeFor (hashDemand (m.context hash) { t with mode } extra u.arrayCapacity) := by
    rw [hcapacity, ← newHashCount_eq_hashDemand]
    exact h.buckets_size
  have husize : u.array.size < 2 ^ 63 := h.array_le.trans_lt (by decide)
  refine ⟨?_, ?_, ?_, ?_, ?_, h.sound.unanchored h.anchored, h.anchored⟩
  · rw [hcapacity]
    exact hs.isArraySize_newArraySize hhash hsize habsent mode
  · intro hzero
    rw [hbuckets, hzero]
    rfl
  · intro hne
    rw [hbuckets]
    exact hashSizeFor_isLeast hne
  · intro k v
    rw [mem_arrayEntries_iff_get (m.context hash) husize]
    refine and_congr_right fun hk ↦ and_congr_right fun _ ↦ ?_
    rw [h.get_eq_of_mem_listKeys hk]
    rfl
  · intro k v hentry hk
    -- A key of the hash part has no index in the array part.
    obtain ⟨i, hbinding⟩ := h.sound.mem_hashEntries_iff.mp hentry
    obtain ⟨j, hj, rfl⟩ := List.mem_map.mp hk
    have hindex := (h.sound.binding?_fits hbinding).2.2.2.2
    rw [index?_of_lt husize (List.mem_range.mp hj)] at hindex
    cases hindex

end Rebuilt

/-! ## Writing through a rehash -/

namespace Sound

end Sound

end Table

end LuaData
