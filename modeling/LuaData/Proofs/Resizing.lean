import LuaData.Proofs.Entries
import LuaData.Proofs.Sizes

/-!
# Rebuilding a table

A rehash inserts the entries anew, one after the other, into a table with an empty hash part. Each
of these insertions is a write of its own (`Sound.reinsert`), so that the rebuilt table is well
formed and has the same values. `Sound.rehash` puts this together with the choice of the sizes: a
rehash either reports that the table is too large or makes room for the key that it was told about.
-/

namespace LuaData.Table

variable {hash : Value → UInt64} {m : Moment} {t u : Table} {key value : Value}

/-- An entry is put into the array part if its key has an index there. -/
theorem reinsert_eq (ctx : Context) (t : Table) (key value : Value) :
    t.reinsert ctx (key, value) =
      match t.index? key with
      | some i => .ok { t with array := t.array.setIfInBounds i value }
      | none => t.insertFresh ctx key value := by
  unfold reinsert index?
  cases key with
  | num n =>
    cases n with
    | int k => cases h : t.arrayIndex? k <;> simp [h]
    | float x => rfl
  | _ => rfl

/-- An entry that a rehash may put into a table. -/
structure Insertable (fresh : Ref) (e : Value × Value) : Prop where
  stored : e.1.Stored
  key_named : e.1.Named fresh
  ne_nil : e.2 ≠ .nil
  value_named : e.2.Named fresh

namespace Sound

/-- Inserting an absent key anew is a write under it. -/
theorem reinsert (hs : t.Sound hash m) (hhash : Value.RespectsEq hash) (hkey : key.Stored)
    (hvalue : value ≠ .nil)
    (habsent : ∀ i k, t.arena.key? m.alive i = some k → k.content ≠ key.content)
    (hroom : t.index? key = none → t.arena.used < t.buckets.size)
    (hbuckets : t.buckets.size ≤ 2 ^ 32) :
    ∃ u, t.reinsert (m.context hash) (key, value) = .ok u ∧ Placed hash m t key value u ∧
      u.array.size = t.array.size ∧
      u.arena.used = t.arena.used + (if t.index? key = none then 1 else 0) ∧
      ∀ i k, u.arena.key? m.alive i = some k →
        k.content = key.content ∨ t.arena.key? m.alive i = some k := by
  rw [reinsert_eq]
  cases hindex : t.index? key with
  | some i => exact ⟨_, rfl, .inArray hindex, by simp, by simp, fun i k hk ↦ .inr hk⟩
  | none =>
    rcases hs.insertFresh key value (hroom hindex) with ⟨i, u, hu, hinserted⟩ | ⟨-, hnames⟩
    · refine ⟨u, hu, ?_, by rw [hinserted.array], by simpa using hinserted.added.used_eq, ?_⟩
      · exact .inserted hindex hvalue ((hs.slot?_eq_none_iff hhash hkey).mpr habsent) (hroom hindex)
          hinserted
      · intro j k hk
        by_cases hj : j = i
        · rw [hj, Arena.key?, hinserted.added.state_self] at hk
          have htarget := Handle.target_of_get hk
          rw [Handle.target_ofEntry] at htarget
          exact .inl (htarget ▸ rfl)
        · rw [Arena.key?_congr (hinserted.added.state_of_ne j hj)] at hk
          exact .inr hk
    · have := hroom hindex
      omega

/-- Inserting different absent keys anew gives each its value if the entry is kept, and all other
keys keep theirs. -/
theorem reinsertAll (es : List (Value × Value)) (hs : t.Sound hash m)
    (hhash : Value.RespectsEq hash) (hes : ∀ e ∈ es, Insertable m.fresh e)
    (hpairwise : es.Pairwise fun e f ↦ e.1.content ≠ f.1.content)
    (habsent : ∀ e ∈ es, ∀ i k, t.arena.key? m.alive i = some k → k.content ≠ e.1.content)
    (hroom : (t.arena.used + es.countP fun e ↦ t.index? e.1 = none) ≤ t.buckets.size)
    (hbuckets : t.buckets.size ≤ 2 ^ 32) (hsize : t.array.size ≤ 2 ^ 62) :
    ∃ u, es.foldlM (Table.reinsert (m.context hash)) t = .ok u ∧ u.Sound hash m ∧ Frame t u ∧
      u.array.size = t.array.size ∧
      u.arena.used = t.arena.used + (es.countP fun e ↦ t.index? e.1 = none) ∧
      ∀ k : Value, k.Stored →
        (∀ e ∈ es, e.1.content = k.content →
          u.get (m.context hash) k = if Kept m.alive t.mode e then e.2 else .nil) ∧
        ((∀ e ∈ es, e.1.content ≠ k.content) →
          u.get (m.context hash) k = t.get (m.context hash) k) := by
  induction es generalizing t with
  | nil =>
    exact ⟨t, rfl, hs, .refl t, rfl, rfl, fun k _ ↦ ⟨nofun, fun _ ↦ rfl⟩⟩
  | cons e es ih =>
    obtain ⟨key, value⟩ := e
    obtain ⟨hne, hpairwise⟩ := List.pairwise_cons.mp hpairwise
    have he := hes (key, value) List.mem_cons_self
    simp only [List.countP_cons, decide_eq_true_eq] at hroom ⊢
    obtain ⟨u, hu, hplaced, husize, hused, hkeys⟩ := hs.reinsert hhash he.stored he.ne_nil
      (habsent _ List.mem_cons_self) (fun hindex ↦ by rw [if_pos hindex] at hroom; omega) hbuckets
    have hframe := hplaced.frame hs hhash he.value_named hsize
    have hindex : ∀ k, u.index? k = t.index? k := index?_congr husize
    obtain ⟨w, hw, hwsound, hwframe, hwsize, hwused, hwget⟩ := ih
      (hplaced.sound hs hhash he.stored he.key_named he.value_named hsize)
      (fun e he ↦ hes e (List.mem_cons_of_mem _ he)) hpairwise
      (fun e' he' i k hk ↦ by
        rcases hkeys i k hk with hcontent | hold
        · rw [hcontent]
          exact hne e' he'
        · exact habsent e' (List.mem_cons_of_mem _ he') i k hold)
      (by simp only [hindex, hused, hframe.size]; omega) (hframe.size ▸ hbuckets) (husize ▸ hsize)
    refine ⟨w, ?_, hwsound, hframe.trans hwframe, hwsize.trans husize, ?_, ?_⟩
    · rw [List.foldlM_cons, hu]
      exact hw
    · simp only [hwused, hindex, hused]
      omega
    · intro k hk
      have hupdated := hplaced.updated_ite hs hhash he.stored he.key_named he.value_named hsize k hk
      obtain ⟨hsome, hnone⟩ := hwget k hk
      rw [hframe.mode] at hsome
      constructor
      · intro e' he' hcontent
        rcases List.mem_cons.mp he' with rfl | he'
        · rw [hnone fun f hf ↦ by rw [← hcontent]; exact (hne f hf).symm, hupdated,
            if_pos hcontent.symm]
        · exact hsome e' he' hcontent
      · intro hother
        rw [hnone fun f hf ↦ hother f (List.mem_cons_of_mem _ hf), hupdated,
          if_neg fun h ↦ hother _ List.mem_cons_self h.symm]

end Sound

/-- The key is an integer beyond an array part of the given size. -/
def beyond (size : Nat) : Value → Bool
  | .int k => decide ((size : Int) < k.toInt)
  | _ => false

/-- The entries that a rebuilt table gets one by one. -/
def pending (ctx : Context) (t : Table) (size : Nat) : List (Value × Value) :=
  (t.arrayEntries.filter fun e ↦ beyond size e.1) ++ t.hashEntries ctx

/-- The table that a rebuild starts from: the values within the new array part and an empty hash
part. -/
def bare (t : Table) (arraySize hashSize : Nat) : Table where
  array := t.array.take arraySize ++ Array.replicate (arraySize - t.array.size) .nil
  buckets := Array.replicate hashSize []
  arena := .empty
  metatable := t.metatable
  mode := t.mode
  anchored := false

/-- A rebuild inserts the pending entries, if the new hash part is not too large. -/
theorem resize_eq (ctx : Context) (t : Table) (arraySize hashCount : Nat) :
    t.resize ctx arraySize hashCount =
      if 2 ^ maxHashBits < hashSizeFor hashCount then .error .tableOverflow
      else (t.pending ctx arraySize).foldlM (reinsert ctx)
        (t.bare arraySize (hashSizeFor hashCount)) := by
  by_cases hlarge : 2 ^ maxHashBits < hashSizeFor hashCount
  · simp only [resize, if_pos hlarge]
    rfl
  · simp only [resize, if_neg hlarge]
    rfl

/-- The pending entries are entries of the table. -/
theorem pending_sublist (ctx : Context) (t : Table) (size : Nat) :
    (t.pending ctx size).Sublist (t.entries ctx) :=
  List.filter_sublist.append (List.Sublist.refl _)

/-- The array part of a bare table has the size that was asked for. -/
@[simp]
theorem size_array_bare (t : Table) (arraySize hashSize : Nat) :
    (t.bare arraySize hashSize).array.size = arraySize := by
  simp only [bare, Array.size_append, Array.take_eq_extract, Array.size_extract,
    Array.size_replicate]
  omega

/-- The values within the new array part stay. -/
theorem getD_bare (t : Table) {arraySize i : Nat} (hashSize : Nat) (hi : i < arraySize) :
    (t.bare arraySize hashSize).array.getD i .nil = t.array.getD i .nil := by
  simp only [bare, Array.getD_eq_getD_getElem?, Array.getElem?_append, Array.take_eq_extract,
    Array.size_extract]
  by_cases hlt : i < t.array.size
  · rw [if_pos (by omega), Array.getElem?_extract, if_pos (by omega), Nat.zero_add]
  · rw [if_neg (by omega), Array.getElem?_eq_none (Nat.le_of_not_lt hlt), Array.getElem?_replicate]
    split <;> rfl

/-- The hash part of a bare table is empty. -/
theorem getFromHash_bare (ctx : Context) (t : Table) (arraySize hashSize : Nat) (key : Value) :
    (t.bare arraySize hashSize).getFromHash ctx key = .nil := by
  simp [getFromHash, bare, chain_replicate, Arena.find?]

namespace Sound

/-- A bare table is well formed. -/
theorem bare (hs : t.Sound hash m) (mode : WeakMode) {arraySize hashSize : Nat}
    (hweak : mode.values = true → arraySize = 0)
    (hsize : hashSize = 0 ∨ hashSize.isPowerOfTwo) :
    Sound hash m (Table.bare { t with mode } arraySize hashSize) := by
  refine sound_bare hash m t.metatable hsize (fun h ↦ ?_) fun v hv ↦ ?_
  · have := size_array_bare { t with mode } arraySize hashSize
    rw [hweak h] at this ⊢
    exact this
  · rcases Array.mem_append.mp hv with hmem | hmem
    · refine hs.array_named v ?_
      obtain ⟨i, hi, rfl⟩ := Array.mem_iff_getElem.mp hmem
      simp only [Array.take_eq_extract, Array.getElem_extract]
      exact Array.getElem_mem _
    · rw [Array.eq_of_mem_replicate hmem]
      exact nofun

/-- The entries of a well-formed table may be put into another one. -/
theorem insertable (hs : t.Sound hash m) {e : Value × Value}
    (he : e ∈ t.entries (m.context hash)) : Insertable m.fresh e := by
  obtain ⟨k, v⟩ := e
  rcases List.mem_append.mp he with hmem | hmem
  · obtain ⟨i, hi, rfl, rfl, hne⟩ := mem_arrayEntries_iff.mp hmem
    refine ⟨rfl, nofun, hne, hs.array_named _ ?_⟩
    simp [Array.getD_eq_getD_getElem?, hi]
  · obtain ⟨i, hentry⟩ := hs.mem_hashEntries_iff.mp hmem
    obtain ⟨hstored, hnamed, hne, hvnamed, -⟩ := hs.binding?_fits hentry
    exact ⟨hstored, hnamed, hne, hvnamed⟩

/-- A key with a value that is not pending stays in the array part. -/
theorem exists_index_of_not_pending (hs : t.Sound hash m) (hhash : Value.RespectsEq hash)
    (hsize : t.array.size < 2 ^ 63) {arraySize : Nat} {k : Value} (hk : k.Stored)
    (hne : t.get (m.context hash) k ≠ .nil)
    (hpending : ∀ e ∈ t.pending (m.context hash) arraySize, e.1.content ≠ k.content) :
    ∃ i, i < t.array.size ∧ i < arraySize ∧ k = .int (Int64.ofNat (i + 1)) := by
  obtain ⟨l, hmem, hcontent⟩ := (hs.get_eq_iff hhash hsize hk hne).mp rfl
  rcases List.mem_append.mp hmem with harray | hentry
  · obtain ⟨i, hi, rfl, -⟩ := mem_arrayEntries_iff.mp harray
    refine ⟨i, hi, ?_, Value.content_eq_int hcontent.symm⟩
    by_contra hge
    refine hpending _ (List.mem_append.mpr (.inl (List.mem_filter.mpr ⟨harray, ?_⟩))) hcontent
    simp only [beyond, decide_eq_true_eq, toInt_ofNat_succ (n := i) (by omega)]
    omega
  · exact absurd hcontent (hpending _ (List.mem_append.mpr (.inr hentry)))

/-- A bare table has the values that are not pending. -/
theorem get_bare (hs : t.Sound hash m) (hhash : Value.RespectsEq hash)
    (hsize : t.array.size < 2 ^ 63) (mode : WeakMode) (arraySize hashSize : Nat) {k : Value}
    (hk : k.Stored)
    (hpending : ∀ e ∈ t.pending (m.context hash) arraySize, e.1.content ≠ k.content) :
    (Table.bare { t with mode } arraySize hashSize).get (m.context hash) k =
      t.get (m.context hash) k := by
  by_cases hnil : t.get (m.context hash) k = .nil
  · rw [hnil, get_of_stored _ _ hk]
    split
    · -- A place of the new array part is empty if it was, or if the old one did not reach it.
      rename_i i hi
      obtain ⟨n, rfl, hn, hlt⟩ := index?_eq_some_iff.mp hi
      rw [getD_bare _ _ (by simpa using hlt)]
      by_cases hold : i < t.array.size
      · rwa [get_of_stored _ _ hk, index?_eq_some_iff.mpr ⟨n, rfl, hn, hold⟩] at hnil
      · simp [Array.getD_eq_getD_getElem?, Array.getElem?_eq_none (Nat.le_of_not_lt hold)]
    · exact getFromHash_bare _ _ _ _ _
  · obtain ⟨i, hi, hlt, rfl⟩ := hs.exists_index_of_not_pending hhash hsize hk hnil hpending
    have hindex : (Table.bare { t with mode } arraySize hashSize).index?
        (.int (Int64.ofNat (i + 1))) = some i :=
      index?_eq_some_iff.mpr ⟨_, rfl, toInt_ofNat_succ (by omega), by simpa using hlt⟩
    rw [get_of_stored _ _ hk, get_of_stored _ _ hk, hindex, index?_of_lt hsize hi]
    exact getD_bare _ _ hlt

/-- Once the pending entries are inserted, a key has its value if the entry is kept. -/
theorem get_of_pending (hs : t.Sound hash m) (hhash : Value.RespectsEq hash)
    (hsize : t.array.size < 2 ^ 63) {mode : WeakMode} {arraySize hashSize : Nat}
    (hweak : mode.values = true → arraySize = 0) {k : Value} (hk : k.Stored)
    (hsome : ∀ e ∈ t.pending (m.context hash) arraySize, e.1.content = k.content →
      u.get (m.context hash) k = if Kept m.alive mode e then e.2 else .nil)
    (hnone : (∀ e ∈ t.pending (m.context hash) arraySize, e.1.content ≠ k.content) →
      u.get (m.context hash) k =
        (Table.bare { t with mode } arraySize hashSize).get (m.context hash) k) :
    u.get (m.context hash) k =
      if Kept m.alive mode (k, t.get (m.context hash) k) then t.get (m.context hash) k
      else .nil := by
  by_cases hmem : ∃ e ∈ t.pending (m.context hash) arraySize, e.1.content = k.content
  · obtain ⟨⟨l, v⟩, he, hcontent⟩ := hmem
    have hentry : (l, v) ∈ t.entries (m.context hash) := (pending_sublist _ _ _).subset he
    rw [hsome _ he hcontent, (hs.get_eq_iff hhash hsize hk (hs.insertable hentry).ne_nil).mpr
      ⟨l, hentry, hcontent⟩]
    exact if_congr (kept_congr hcontent v) rfl rfl
  · have hother : ∀ e ∈ t.pending (m.context hash) arraySize, e.1.content ≠ k.content :=
      fun e he hcontent ↦ hmem ⟨e, he, hcontent⟩
    rw [hnone hother, hs.get_bare hhash hsize mode _ _ hk hother]
    by_cases hnil : t.get (m.context hash) k = .nil
    · rw [hnil, ite_self]
    · -- The entry stays in the array part, so that the new mode has strong values.
      obtain ⟨i, -, hlt, rfl⟩ := hs.exists_index_of_not_pending hhash hsize hk hnil hother
      refine (if_pos (kept_int m.alive ?_ _ _)).symm
      by_contra hvalues
      have hzero := hweak (by simpa using hvalues)
      omega

end Sound

/-- The keys that a rehash counts. -/
def rehashKeys (ctx : Context) (t : Table) (extra : Option Value) : List Value :=
  t.arrayEntries.map Prod.fst ++ ((t.hashEntries ctx).map Prod.fst ++ extra.toList)

/-- The size of the array part after a rehash. -/
def newArraySize (ctx : Context) (t : Table) (extra : Option Value) : Nat :=
  if t.mode.values then 0
  else (arraySizeFor ((t.rehashKeys ctx extra).filterMap arrayCandidate?)).1

/-- The key does not belong to an array part of the given size. -/
def outside (size : Nat) (key : Value) : Bool :=
  !(arrayCandidate? key).any fun n ↦ n ≤ size

/-- The number of keys, with the extra key, that do not belong to the array part after a rehash. -/
def newHashCount (ctx : Context) (t : Table) (extra : Option Value) : Nat :=
  (t.rehashKeys ctx extra).countP (outside (t.newArraySize ctx extra))

/-- The keys that an array part may take are at least one, and within the limit. -/
theorem candidate_bounds {keys : List Value} {n : Nat} (h : n ∈ keys.filterMap arrayCandidate?) :
    1 ≤ n ∧ n ≤ 2 ^ maxArrayBits := by
  obtain ⟨k, -, hk⟩ := List.mem_filterMap.mp h
  unfold arrayCandidate? at hk
  split at hk
  · split at hk
    · rename_i hbounds
      have heq := Option.some.inj hk
      simp only [maxArrayBits] at hbounds ⊢
      omega
    · cases hk
  · cases hk

/-- Zero is not one of them. -/
theorem zero_notMem_filterMap (keys : List Value) : 0 ∉ keys.filterMap arrayCandidate? :=
  fun hmem ↦ Nat.not_succ_le_zero 0 (candidate_bounds hmem).1

/-- The array part after a rehash is within the limit. -/
theorem newArraySize_le (ctx : Context) (t : Table) (extra : Option Value) :
    t.newArraySize ctx extra ≤ 2 ^ maxArrayBits := by
  unfold newArraySize
  split
  · exact Nat.zero_le _
  · exact (arraySizeFor_count (zero_notMem_filterMap _)).1

/-- A key has an index if it does not lie outside. -/
theorem index?_eq_none_iff_outside {size : Nat} (hsize : u.array.size = size)
    (hle : size ≤ 2 ^ maxArrayBits) (key : Value) :
    u.index? key = none ↔ outside size key = true := by
  have hle' : size ≤ 2 ^ 31 := hle
  by_cases hint : ∃ k, key = .int k
  · obtain ⟨k, rfl⟩ := hint
    have hcandidate : arrayCandidate? (.int k) =
        if 1 ≤ k.toInt ∧ k.toInt ≤ 2 ^ 31 then some k.toInt.toNat else none := rfl
    show u.arrayIndex? k = none ↔ _
    rw [outside, arrayIndex?, hsize, hcandidate]
    by_cases hin : 1 ≤ k.toInt ∧ k.toInt ≤ size
    · rw [if_pos hin, if_pos (by omega)]
      simp only [Option.any_some, reduceCtorEq, Bool.not_eq_true', decide_eq_false_iff_not,
        false_iff, not_not]
      omega
    · rw [if_neg hin]
      split
      · simp only [Option.any_some, true_iff, Bool.not_eq_true', decide_eq_false_iff_not]
        omega
      · simp
  · have hnone : u.index? key = none ∧ arrayCandidate? key = none := by
      cases key with
      | num n =>
        cases n with
        | int k => exact absurd ⟨k, rfl⟩ hint
        | float x => exact ⟨rfl, rfl⟩
      | _ => exact ⟨rfl, rfl⟩
    simp [hnone.1, outside, hnone.2]

/-- The integers from one on are candidates for the new array part, up to the limit. -/
theorem arrayCandidate?_ofNat_succ {i : Nat} (hi : i + 1 < 2 ^ 63) :
    arrayCandidate? (.int (Int64.ofNat (i + 1))) =
      if i + 1 ≤ 2 ^ maxArrayBits then some (i + 1) else none := by
  have hn : (Int64.ofNat (i + 1)).toInt = i + 1 := by
    rw [Int64.toInt_ofNat_of_lt hi]
    rfl
  simp only [arrayCandidate?, hn, maxArrayBits]
  refine if_congr (by omega) ?_ rfl
  congr 1

/-- The keys of the array part are candidates for the new one, up to the limit. -/
theorem arrayCandidate?_of_mem (hsize : t.array.size < 2 ^ 63) {e : Value × Value}
    (he : e ∈ t.arrayEntries) : ∃ n : Nat, e.1 = .int (Int64.ofNat n) ∧ n ≤ t.array.size ∧
      arrayCandidate? e.1 = if n ≤ 2 ^ maxArrayBits then some n else none := by
  obtain ⟨k, v⟩ := e
  obtain ⟨i, hi, rfl, -⟩ := mem_arrayEntries_iff.mp he
  exact ⟨i + 1, rfl, hi, arrayCandidate?_ofNat_succ (by omega)⟩

/-- The entries of the array part that a rehash does not count, since their keys are beyond the
limit. -/
def uncounted (t : Table) : List (Value × Value) :=
  t.arrayEntries.filter fun e ↦ (arrayCandidate? e.1).isNone

/-- The number of entries that a rehash counts, with the extra key. -/
def rehashTotal (ctx : Context) (t : Table) (extra : Option Value) : Nat :=
  ((t.arrayEntries.map Prod.fst).filterMap arrayCandidate?).length +
    ((t.hashEntries ctx).map Prod.fst ++ extra.toList).length

/-- The number of entries that a rehash asks for in the hash part: those that it counts and that do
not go to the array part. -/
def hashRequest (ctx : Context) (t : Table) (extra : Option Value) : Nat :=
  t.rehashTotal ctx extra -
    if t.mode.values then 0
    else (arraySizeFor ((t.rehashKeys ctx extra).filterMap arrayCandidate?)).2

/-- A rehash rebuilds the table with the sizes that it has chosen. -/
theorem rehash_eq_resize (ctx : Context) (t : Table) (extra : Option Value) :
    t.rehash ctx extra = t.resize ctx (t.newArraySize ctx extra) (t.hashRequest ctx extra) := by
  have hcandidates : (t.arrayEntries.map Prod.fst).filterMap arrayCandidate? ++
      ((t.hashEntries ctx).map Prod.fst ++ extra.toList).filterMap arrayCandidate? =
      (t.rehashKeys ctx extra).filterMap arrayCandidate? := by
    simp only [rehashKeys, List.filterMap_append]
  unfold rehash newArraySize hashRequest rehashTotal
  simp only [hcandidates]
  split <;> rfl

/-- The keys are those that an array part of the given size takes and those outside. -/
theorem countP_candidates_add_outside (keys : List Value) (size : Nat) :
    ((keys.filterMap arrayCandidate?).countP fun n ↦ n ≤ size) + keys.countP (outside size) =
      keys.length := by
  rw [List.length_eq_countP_add_countP fun k ↦ !outside size k, List.countP_filterMap]
  congr 1
  · refine List.countP_congr fun k _ ↦ ?_
    cases h : arrayCandidate? k <;> simp [outside, h]
  · refine List.countP_congr fun k _ ↦ ?_
    simp

/-- A rehash counts all keys but those of the array part beyond the limit. -/
theorem rehashTotal_add_uncounted (ctx : Context) (t : Table) (extra : Option Value) :
    t.rehashTotal ctx extra + t.uncounted.length = (t.rehashKeys ctx extra).length := by
  have harray : ((t.arrayEntries.map Prod.fst).filterMap arrayCandidate?).length +
      t.uncounted.length = t.arrayEntries.length := by
    rw [List.filterMap_map, List.length_filterMap_eq_countP, uncounted,
      ← List.countP_eq_length_filter,
      List.length_eq_countP_add_countP fun e ↦ (arrayCandidate? e.1).isSome]
    congr 1
    refine List.countP_congr fun e _ ↦ ?_
    cases arrayCandidate? e.1 <;> simp
  simp only [rehashTotal, rehashKeys, List.length_append, List.length_map]
  omega

/-- The hash part is made for as many entries too few as are not counted. -/
theorem hashRequest_add_uncounted (ctx : Context) (t : Table) (extra : Option Value) :
    t.hashRequest ctx extra + t.uncounted.length = t.newHashCount ctx extra := by
  have htotal := rehashTotal_add_uncounted ctx t extra
  have hkeys := countP_candidates_add_outside (t.rehashKeys ctx extra)
  unfold hashRequest newHashCount newArraySize
  by_cases hweak : t.mode.values = true
  · have hnone : (((t.rehashKeys ctx extra).filterMap arrayCandidate?).countP
        fun n ↦ n ≤ 0) = 0 := by
      rw [List.countP_eq_zero]
      intro n hn hle
      have : n = 0 := by simpa using hle
      exact zero_notMem_filterMap _ (this ▸ hn)
    have hzero := hkeys 0
    rw [if_pos hweak, if_pos hweak]
    omega
  · have hcount := (arraySizeFor_count (zero_notMem_filterMap (t.rehashKeys ctx extra))).2
    have hsize := hkeys (arraySizeFor ((t.rehashKeys ctx extra).filterMap arrayCandidate?)).1
    rw [← hcount] at hsize
    -- The array part takes no more than was counted.
    have hle : (arraySizeFor ((t.rehashKeys ctx extra).filterMap arrayCandidate?)).2 ≤
        t.rehashTotal ctx extra := by
      rw [hcount]
      refine List.countP_le_length.trans ?_
      simp only [rehashKeys, rehashTotal, List.filterMap_append, List.length_append]
      have := List.length_filterMap_le arrayCandidate? ((t.hashEntries ctx).map Prod.fst)
      have := List.length_filterMap_le arrayCandidate? extra.toList
      omega
    rw [if_neg hweak, if_neg hweak]
    omega

/-- A table within the limit has nothing that is not counted. -/
theorem uncounted_eq_nil (hsize : t.array.size ≤ 2 ^ 31) : t.uncounted = [] := by
  rw [uncounted, List.filter_eq_nil_iff]
  intro e he
  obtain ⟨n, -, hle, hn⟩ := arrayCandidate?_of_mem (hsize.trans_lt (by decide)) he
  have hlimit : n ≤ 2 ^ maxArrayBits := hle.trans hsize
  simp [hn, hlimit]

/-- A rehash rebuilds the table with room for the keys that do not belong to the array part. -/
theorem rehash_eq (ctx : Context) (extra : Option Value) (hsize : t.array.size ≤ 2 ^ 31) :
    t.rehash ctx extra =
      t.resize ctx (t.newArraySize ctx extra) (t.newHashCount ctx extra) := by
  rw [rehash_eq_resize, ← hashRequest_add_uncounted, uncounted_eq_nil hsize, List.length_nil,
    Nat.add_zero]

/-- What a rehash makes of a table. -/
structure Rebuilt (hash : Value → UInt64) (m : Moment) (t : Table) (mode : WeakMode)
    (extra : Option Value) (u : Table) : Prop where
  sound : u.Sound hash m
  metatable : u.metatable = t.metatable
  mode_eq : u.mode = mode
  anchored : u.anchored = false
  array_size : u.array.size = newArraySize (m.context hash) { t with mode } extra
  buckets_size : u.buckets.size = hashSizeFor (newHashCount (m.context hash) { t with mode } extra)
  buckets_le : u.buckets.size ≤ 2 ^ 30
  /-- There is room for the key that the rehash was told about. -/
  room : ∀ key, extra = some key → u.index? key = none → u.arena.used < u.buckets.size
  /-- An entry stays if the handles that it gets are not empty. -/
  values : ∀ k : Value, k.Stored → u.get (m.context hash) k =
    if Kept m.alive mode (k, t.get (m.context hash) k) then t.get (m.context hash) k else .nil

/-- The array part after a rehash is within the limit. -/
theorem Rebuilt.array_le {mode : WeakMode} {extra : Option Value}
    (h : Rebuilt hash m t mode extra u) : u.array.size ≤ 2 ^ 31 :=
  h.array_size ▸ newArraySize_le _ _ _

/-- The pending entries that go to the hash part, and the extra key if it does, are the keys that do
not belong to the array part. -/
theorem countP_pending (ctx : Context) (hsize : t.array.size < 2 ^ 63) (extra : Option Value)
    {size : Nat} (hle : size ≤ 2 ^ maxArrayBits) :
    ((t.pending ctx size).countP fun e ↦ outside size e.1) + extra.toList.countP (outside size) =
      (t.rehashKeys ctx extra).countP (outside size) := by
  have harray : (t.arrayEntries.filter fun e ↦ beyond size e.1).countP
      (fun e ↦ outside size e.1) = t.arrayEntries.countP fun e ↦ outside size e.1 := by
    rw [List.countP_filter]
    refine List.countP_congr fun e he ↦ ?_
    obtain ⟨n, hn, hlt, hcandidate⟩ := arrayCandidate?_of_mem hsize he
    rw [hn] at hcandidate ⊢
    simp only [outside, hcandidate, beyond, Int64.toInt_ofNat_of_lt (hlt.trans_lt hsize),
      Bool.and_eq_true, Bool.not_eq_true', decide_eq_true_eq]
    split
    · simp only [Option.any_some, decide_eq_false_iff_not]
      omega
    · simp only [Option.any_none, true_and, iff_true]
      omega
  simp only [pending, rehashKeys, List.countP_append, List.countP_map, harray]
  simp only [Function.comp_def]
  omega

/-- A rehash considers the keys in use and the extra key, whatever the mode is to be. -/
theorem length_rehashKeys (ctx : Context) (t : Table) (mode : WeakMode) (extra : Option Value) :
    (rehashKeys ctx { t with mode } extra).length = t.keyCount ctx + extra.toList.length := by
  simp only [rehashKeys, keyCount, entries, List.length_append, List.length_map, Nat.add_assoc]
  rfl

/-- A rehash that asks for a hash part beyond the limit has found very many keys. -/
theorem lt_keyCount_of_lt_newHashCount {ctx : Context} {mode : WeakMode} {extra : Option Value}
    (h : 2 ^ maxHashBits < hashSizeFor (newHashCount ctx { t with mode } extra)) :
    2 ^ maxHashBits < t.keyCount ctx + extra.toList.length :=
  (lt_of_lt_hashSizeFor h).trans_le
    (length_rehashKeys ctx t mode extra ▸ List.countP_le_length)

/-- The values of a table cannot be made weak if there are more keys than the hash part takes. -/
theorem setMode_eq_tableOverflow {ctx : Context} {mode : WeakMode} (hsize : t.array.size ≤ 2 ^ 31)
    (hvalues : mode.values = true) (hne : mode ≠ t.mode)
    (hlarge : 2 ^ maxHashBits < t.keyCount ctx) :
    t.setMode ctx mode = .error .tableOverflow := by
  have htotal := rehashTotal_add_uncounted ctx { t with mode } none
  have hnil : uncounted { t with mode } = [] := uncounted_eq_nil hsize
  rw [hnil, length_rehashKeys] at htotal
  have hrequest : hashRequest ctx { t with mode } none = t.keyCount ctx := by
    rw [hashRequest, if_pos hvalues]
    exact htotal
  rw [setMode, if_neg hne, rehash_eq_resize, resize_eq, hrequest]
  exact if_pos (hlarge.trans_le (le_hashSizeFor _))

namespace Sound

/-- A table is rebuilt in all sizes that have room for the pending entries. -/
theorem resize (hs : t.Sound hash m) (hhash : Value.RespectsEq hash) (hsize : t.array.size ≤ 2 ^ 31)
    {mode : WeakMode} {size count : Nat} (hle : size ≤ 2 ^ maxArrayBits)
    (hweak : mode.values = true → size = 0)
    (hroom : ((t.pending (m.context hash) size).countP fun e ↦ outside size e.1) ≤ count)
    (hsmall : hashSizeFor count ≤ 2 ^ maxHashBits) :
    ∃ u, Table.resize (m.context hash) { t with mode } size count = .ok u ∧ u.Sound hash m ∧
      Frame (Table.bare { t with mode } size (hashSizeFor count)) u ∧ u.array.size = size ∧
      (u.arena.used = (t.pending (m.context hash) size).countP fun e ↦ outside size e.1) ∧
      ∀ k : Value, k.Stored → u.get (m.context hash) k =
        if Kept m.alive mode (k, t.get (m.context hash) k) then t.get (m.context hash) k
        else .nil := by
  have hlimits : size ≤ 2 ^ 31 ∧ hashSizeFor count ≤ 2 ^ 30 := ⟨hle, hsmall⟩
  let start := Table.bare { t with mode } size (hashSizeFor count)
  have hbuckets : start.buckets.size = hashSizeFor count := Array.size_replicate
  have harray : start.array.size = size := size_array_bare _ _ _
  have hstart : start.Sound hash m := hs.bare mode hweak (hashSizeFor_isPowerOfTwo count)
  have hsublist := pending_sublist (m.context hash) t size
  have hcount : ((t.pending (m.context hash) size).countP fun e ↦ start.index? e.1 = none) =
      (t.pending (m.context hash) size).countP fun e ↦ outside size e.1 :=
    List.countP_congr fun e _ ↦ by simpa using index?_eq_none_iff_outside harray hle e.1
  have hfits : start.arena.used + ((t.pending (m.context hash) size).countP fun e ↦
      start.index? e.1 = none) ≤ start.buckets.size := by
    rw [hcount, hbuckets]
    show 0 + _ ≤ _
    have hgrow := le_hashSizeFor count
    omega
  obtain ⟨u, hu, husound, hframe, husize, hused, huget⟩ := hstart.reinsertAll
    (t.pending (m.context hash) size) hhash (fun e he ↦ hs.insertable (hsublist.subset he))
    ((hs.entries_pairwise (by omega)).sublist hsublist) (fun e _ i k hk ↦ by cases hk) hfits
    (by omega) (by omega)
  have hused' : u.arena.used = 0 + (t.pending (m.context hash) size).countP fun e ↦
      start.index? e.1 = none := hused
  refine ⟨u, ?_, husound, hframe, husize.trans harray, ?_, fun k hk ↦ ?_⟩
  · rw [resize_eq, if_neg (Nat.not_lt.mpr hsmall)]
    exact hu
  · rw [hused', hcount, Nat.zero_add]
  · obtain ⟨hsome, hnone⟩ := huget k hk
    exact hs.get_of_pending hhash (by omega) hweak hk hsome hnone

/-- A rehash reports that the table is too large, if there are very many keys, or it rebuilds the
table. -/
theorem rehash (hs : t.Sound hash m) (hhash : Value.RespectsEq hash) (hsize : t.array.size ≤ 2 ^ 31)
    (mode : WeakMode) (extra : Option Value) :
    (Table.rehash (m.context hash) { t with mode } extra = .error .tableOverflow ∧
      2 ^ maxHashBits < hashSizeFor (newHashCount (m.context hash) { t with mode } extra)) ∨
      ∃ u, Table.rehash (m.context hash) { t with mode } extra = .ok u ∧
        Rebuilt hash m t mode extra u := by
  let size := newArraySize (m.context hash) { t with mode } extra
  let count := newHashCount (m.context hash) { t with mode } extra
  have hle : size ≤ 2 ^ maxArrayBits := newArraySize_le _ _ _
  have hcount : ((t.pending (m.context hash) size).countP fun e ↦ outside size e.1) +
      extra.toList.countP (outside size) = count :=
    countP_pending _ (hsize.trans_lt (by decide)) extra hle
  rw [rehash_eq (t := { t with mode }) _ _ hsize]
  by_cases hlarge : 2 ^ maxHashBits < hashSizeFor count
  · exact .inl ⟨(resize_eq _ _ _ _).trans (if_pos hlarge), hlarge⟩
  · have hsmall := Nat.le_of_not_lt hlarge
    obtain ⟨u, hu, husound, hframe, husize, hused, hvalues⟩ := hs.resize hhash hsize hle
      (fun h ↦ if_pos h) (hcount ▸ Nat.le_add_right _ _) hsmall
    have hbuckets : u.buckets.size = hashSizeFor count := hframe.size.trans Array.size_replicate
    refine .inr ⟨u, hu, husound, hframe.metatable, hframe.mode, hframe.anchored, husize, hbuckets,
      hbuckets.trans_le hsmall, ?_, hvalues⟩
    rintro key rfl hkey
    rw [index?_eq_none_iff_outside husize hle] at hkey
    simp only [Option.toList_some, List.countP_singleton, hkey, if_true] at hcount
    have hgrow := le_hashSizeFor count
    omega

end Sound

end LuaData.Table
