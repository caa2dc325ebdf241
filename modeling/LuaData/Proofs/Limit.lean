import LuaData.Proofs.Appending
import LuaData.Proofs.Rehashing

/-!
# The limit of the array part

A rehash considers array parts of at most `2 ^ maxArrayBits` keys and counts the keys up to there.
Within the limit that is every key, and the hash part is made for all that it must hold
(`WithinLimit`). But a value that is added at the end of the array part may take it beyond the
limit, and a rehash of such a table does not count the keys there: it asks for that much less in the
hash part, and where it asks for none it fails (`Tally`). `Reaches.limit_is_exact` says both of
every table that is reached, and `appended` reaches beyond the limit.
-/

namespace LuaData

/-- A slot that is not added has no name or would follow itself. -/
theorem Arena.append_ne_noBucket (a : Arena) (chain : List Nat) (hash : UInt64)
    (key value : Handle) : a.append chain hash key value ≠ .error (.fault .noBucket) := by
  unfold append allocate
  intro h
  split at h
  · simp only [bind, Except.bind] at h
    split at h <;> cases h
  · split at h
    · simp only [bind, Except.bind] at h
      split at h <;> cases h
    · cases h

namespace Table

variable {hash : Value → UInt64} {hint : Nat} {m n : Moment} {c : Course} {t u : Table}
  {key value : Value} {extra : Option Value}

/-! ## A rehash without buckets -/

/-- A key has no place in an empty hash part, and only there. -/
theorem insertFresh_eq_noBucket_iff (ctx : Context) (t : Table) (key value : Value) :
    t.insertFresh ctx key value = .error (.fault .noBucket) ↔ t.buckets.size = 0 := by
  unfold insertFresh
  cases hempty : t.buckets.isEmpty with
  | true =>
    have hsize : t.buckets.size = 0 := by simpa using hempty
    exact iff_of_true rfl hsize
  | false =>
    have hsize : t.buckets.size ≠ 0 := by simpa using hempty
    have hslot := t.arena.append_ne_noBucket (t.chain (t.bucketOf (ctx.hash key))) (ctx.hash key)
      (.ofEntry key t.mode.keys) (.ofEntry value t.mode.values)
    refine iff_of_false (fun h ↦ ?_) hsize
    simp only [Bool.false_eq_true, if_false, bind, Except.bind, pure, Except.pure] at h
    split at h
    · rename_i herror
      cases h
      exact hslot herror
    · cases h

/-- An entry has no place if its key has no index in the array part and there are no buckets. -/
theorem reinsert_eq_noBucket_iff (ctx : Context) (t : Table) (e : Value × Value) :
    t.reinsert ctx e = .error (.fault .noBucket) ↔ t.index? e.1 = none ∧ t.buckets.size = 0 := by
  obtain ⟨key, value⟩ := e
  rw [reinsert_eq]
  cases t.index? key with
  | some i => simp
  | none => simp [insertFresh_eq_noBucket_iff]

/-- Inserting an entry anew changes neither the size of the array part nor the number of buckets. -/
theorem sizes_of_reinsert {ctx : Context} {e : Value × Value} (h : t.reinsert ctx e = .ok u) :
    u.array.size = t.array.size ∧ u.buckets.size = t.buckets.size := by
  obtain ⟨key, value⟩ := e
  rw [reinsert_eq] at h
  split at h
  · cases h
    exact ⟨Array.size_setIfInBounds, rfl⟩
  · unfold insertFresh at h
    simp only [bind, Except.bind] at h
    split at h
    · cases h
    · split at h
      · cases h
      · cases h
        exact ⟨rfl, Array.size_setIfInBounds⟩

/-- Entries that are inserted anew leave the size of the array part. -/
theorem size_of_reinsertAll {ctx : Context} {es : List (Value × Value)}
    (h : es.foldlM (reinsert ctx) t = .ok u) : u.array.size = t.array.size := by
  induction es generalizing t with
  | nil =>
    cases h
    rfl
  | cons e es ih =>
    rw [List.foldlM_cons] at h
    cases hr : t.reinsert ctx e with
    | error err =>
      rw [hr] at h
      cases h
    | ok w =>
      rw [hr] at h
      exact (ih h).trans (sizes_of_reinsert hr).1

/-- Inserting entries anew finds no bucket if there are none and one of the keys has no index in the
array part. -/
theorem reinsertAll_eq_noBucket_iff (ctx : Context) (es : List (Value × Value)) (t : Table) :
    es.foldlM (reinsert ctx) t = .error (.fault .noBucket) ↔
      t.buckets.size = 0 ∧ ∃ e ∈ es, t.index? e.1 = none := by
  induction es generalizing t with
  | nil => simp [pure, Except.pure]
  | cons e es ih =>
    have hfirst := reinsert_eq_noBucket_iff ctx t e
    rw [List.foldlM_cons, List.exists_mem_cons_iff]
    cases hr : t.reinsert ctx e with
    | error err =>
      -- The entry has no place, and with empty buckets there is no other reason.
      rw [hr, Except.error.injEq] at hfirst
      show Except.error err = .error (.fault .noBucket) ↔ _
      rw [Except.error.injEq, hfirst]
      refine ⟨fun h ↦ ⟨h.2, .inl h.1⟩, fun ⟨hnone, _⟩ ↦ ⟨?_, hnone⟩⟩
      rw [reinsert_eq] at hr
      split at hr
      · cases hr
      · assumption
    | ok w =>
      obtain ⟨harray, hbuckets⟩ := sizes_of_reinsert hr
      rw [hr] at hfirst
      show es.foldlM (reinsert ctx) w = _ ↔ _
      rw [ih, hbuckets]
      simp only [index?_congr harray]
      refine and_congr_right fun hnone ↦ (or_iff_right fun hindex ↦ ?_).symm
      cases hfirst.mpr ⟨hindex, hnone⟩

/-- The number of buckets for no entries is zero. -/
theorem hashSizeFor_eq_zero_iff {count : Nat} : hashSizeFor count = 0 ↔ count = 0 := by
  have hle := le_hashSizeFor count
  constructor
  · intro h
    omega
  · intro h
    rw [h]
    rfl

/-- The entries that a rehash does not count are pending, and for the hash part. -/
theorem mem_pending_of_mem_uncounted (ctx : Context) (hsize : t.array.size < 2 ^ 63) {size : Nat}
    (hle : size ≤ 2 ^ maxArrayBits) {e : Value × Value} (he : e ∈ t.uncounted) :
    e ∈ t.pending ctx size ∧ outside size e.1 = true := by
  obtain ⟨hmem, hnone⟩ := List.mem_filter.mp he
  obtain ⟨n, hkey, hn, hcandidate⟩ := arrayCandidate?_of_mem hsize hmem
  have hlimit : ¬ n ≤ 2 ^ maxArrayBits := by
    intro hlimit
    rw [hcandidate, if_pos hlimit] at hnone
    cases hnone
  refine ⟨List.mem_append.mpr (.inl (List.mem_filter.mpr ⟨hmem, ?_⟩)), ?_⟩
  · simp only [hkey, beyond, Int64.toInt_ofNat_of_lt (hn.trans_lt hsize), decide_eq_true_eq]
    omega
  · rw [outside, hcandidate, if_neg hlimit]
    rfl

/-- A rehash finds no bucket if it asks for none and has not counted all entries. -/
theorem rehash_eq_noBucket_iff (ctx : Context) (extra : Option Value)
    (hsize : t.array.size < 2 ^ 63) :
    t.rehash ctx extra = .error (.fault .noBucket) ↔
      t.hashRequest ctx extra = 0 ∧ t.uncounted ≠ [] := by
  have hle := newArraySize_le ctx t extra
  rw [rehash_eq_resize, resize_eq]
  by_cases hlarge : 2 ^ maxHashBits < hashSizeFor (t.hashRequest ctx extra)
  · rw [if_pos hlarge]
    have hpos := Nat.zero_lt_of_lt (lt_of_lt_hashSizeFor hlarge)
    exact iff_of_false nofun fun h ↦ hpos.ne' h.1
  · have hbuckets : (t.bare (t.newArraySize ctx extra)
        (hashSizeFor (t.hashRequest ctx extra))).buckets.size =
        hashSizeFor (t.hashRequest ctx extra) := Array.size_replicate
    rw [if_neg hlarge, reinsertAll_eq_noBucket_iff, hbuckets, hashSizeFor_eq_zero_iff]
    refine and_congr_right fun hzero ↦ ?_
    simp only [index?_eq_none_iff_outside (size_array_bare _ _ _) hle]
    constructor
    · intro hpending hnil
      -- Then all keys belong to the array part, and none is pending for the hash part.
      have hcount := countP_pending ctx hsize extra hle
      have hrequest := hashRequest_add_uncounted ctx t extra
      have hpos := List.countP_pos_iff.mpr hpending
      rw [hzero, hnil, List.length_nil] at hrequest
      unfold newHashCount at hrequest
      omega
    · intro hne
      obtain ⟨e, he⟩ := List.exists_mem_of_ne_nil _ hne
      exact ⟨e, mem_pending_of_mem_uncounted ctx hsize hle he⟩

/-- What a rehash counts, and what comes of it. -/
structure Tally (ctx : Context) (t : Table) (extra : Option Value) : Prop where
  /-- It counts the entries and the extra key, but for the entries beyond the limit. -/
  total : t.rehashTotal ctx extra + t.uncounted.length = t.keyCount ctx + extra.toList.length
  /-- It asks for that much less in the hash part than must find a place there. -/
  request : t.hashRequest ctx extra + t.uncounted.length =
    t.hashDemand ctx extra (t.newArraySize ctx extra)
  /-- Where it asks for nothing, they find no bucket. -/
  fault : t.rehash ctx extra = .error (.fault .noBucket) ↔
    t.hashRequest ctx extra = 0 ∧ t.uncounted ≠ []
  /-- The new array part is within the limit. -/
  within : ∀ u, t.rehash ctx extra = .ok u → u.arrayCapacity ≤ 2 ^ maxArrayBits

/-- The tally of a rehash, whatever the size of the table. -/
theorem tally (ctx : Context) (extra : Option Value) (hsize : t.array.size < 2 ^ 63) :
    t.Tally ctx extra where
  total := by
    rw [rehashTotal_add_uncounted, rehashKeys_eq, List.length_append, keys, List.length_map,
      keyCount]
  request := by rw [hashRequest_add_uncounted, newHashCount_eq_hashDemand]
  fault := rehash_eq_noBucket_iff ctx extra hsize
  within := by
    intro u hu
    rw [rehash_eq_resize, resize_eq] at hu
    split at hu
    · cases hu
    · have harray := size_of_reinsertAll hu
      rw [size_array_bare] at harray
      exact harray.trans_le (newArraySize_le ctx t extra)

/-! ## Within the limit -/

/-- The table keeps to the limit of the array part, and so do all rehashes of it. -/
structure WithinLimit (ctx : Context) (t : Table) : Prop where
  capacity : t.arrayCapacity ≤ 2 ^ maxArrayBits
  /-- The integers beyond the limit are in the hash part. -/
  in_hash : ∀ k v, (.int k, v) ∈ t.entries ctx → 2 ^ maxArrayBits < k.toInt →
    (.int k, v) ∈ t.hashEntries ctx
  /-- Every entry is counted, and the extra key. -/
  total : ∀ mode extra,
    rehashTotal ctx { t with mode } extra = t.keyCount ctx + extra.toList.length
  /-- There is a bucket for each key that must find a place in the hash part. -/
  room : ∀ mode extra,
    hashDemand ctx { t with mode } extra (newArraySize ctx { t with mode } extra) ≤
      hashSizeFor (hashRequest ctx { t with mode } extra)
  no_fault : ∀ mode extra, rehash ctx { t with mode } extra ≠ .error (.fault .noBucket)

/-- Keeping to the limit is a matter of the size of the array part. -/
theorem withinLimit_iff (ctx : Context) (t : Table) :
    t.WithinLimit ctx ↔ t.arrayCapacity ≤ 2 ^ maxArrayBits := by
  refine ⟨fun h ↦ h.capacity, fun hcapacity ↦ ?_⟩
  have hsize : t.array.size ≤ 2 ^ 31 := hcapacity
  have hnil := uncounted_eq_nil hsize
  have htally : ∀ mode extra, Tally ctx { t with mode } extra :=
    fun mode extra ↦ tally ctx extra (hsize.trans_lt (by decide))
  refine ⟨hcapacity, ?_, fun mode extra ↦ ?_, fun mode extra ↦ ?_, fun mode extra hfault ↦ ?_⟩
  · intro k v hentry hlarge
    refine (List.mem_append.mp hentry).resolve_left fun harray ↦ ?_
    obtain ⟨n, hkey, hn, -⟩ := arrayCandidate?_of_mem (hsize.trans_lt (by decide)) harray
    obtain rfl : k = Int64.ofNat n := by simpa using hkey
    rw [Int64.toInt_ofNat_of_lt (by omega)] at hlarge
    have hlarge' : (2 : Int) ^ 31 < n := hlarge
    omega
  · have htotal := (htally mode extra).total
    rwa [show uncounted { t with mode } = [] from hnil] at htotal
  · have hrequest := (htally mode extra).request
    rw [show uncounted { t with mode } = [] from hnil] at hrequest
    exact hrequest.symm.trans_le (le_hashSizeFor _)
  · exact ((htally mode extra).fault.mp hfault).2 hnil

/-! ## Beyond the limit -/

/-- The first integer beyond the limit. -/
def firstBeyond : Value := .int (Int64.ofNat (2 ^ maxArrayBits + 1))

/-- If there is an array part beyond the limit, the first key there has a value. -/
def FilledBeyond (array : Array Value) : Prop :=
  2 ^ maxArrayBits < array.size → array.getD (2 ^ maxArrayBits) .nil ≠ .nil

/-- The array part has the value of the first key beyond the limit if it goes that far. -/
theorem get_firstBeyond (ctx : Context) (hsize : t.array.size < 2 ^ 63)
    (hlarge : 2 ^ maxArrayBits < t.array.size) :
    t.get ctx firstBeyond = t.array.getD (2 ^ maxArrayBits) .nil := by
  rw [firstBeyond, get_of_stored _ _ (Value.stored_int _), index?_of_lt hsize hlarge]

/-- An array part within the limit has nothing beyond. -/
theorem filledBeyond_of_le {array : Array Value} (h : array.size ≤ 2 ^ 31) : FilledBeyond array :=
  fun hlarge ↦ absurd hlarge (Nat.not_lt.mpr h)

/-- An array part that ends with values from within the limit on has one beyond it. -/
theorem filledBeyond_of_extent {ctx : Context} {low : Nat} (hsize : t.array.size < 2 ^ 63)
    (hlow : low ≤ 2 ^ 31) (h : Extent (t.get ctx) low t.array.size) : FilledBeyond t.array := by
  intro hlarge
  rw [← get_firstBeyond ctx hsize hlarge]
  exact h.filled _ (Nat.lt_succ_of_le hlow) hlarge

/-- A value added at the end, and what follows it from the hash part, is all that leads beyond the
limit. -/
theorem Sound.filledBeyond_pushBack (hs : t.Sound hash m) (hhash : Value.RespectsEq hash)
    (hnamed : value.Named m.fresh) (hsize : t.array.size ≤ 2 ^ 31) (husize : u.array.size < 2 ^ 63)
    {k : Int64} (hk : k.toInt = t.array.size + 1) (hvalue : value ≠ .nil)
    (hmode : t.mode.values = false) (hslot : t.slot? (m.context hash) (.int k) = none)
    (hpush : t.pushBack (m.context hash) value = .ok u) : FilledBeyond u.array := by
  obtain ⟨v, hv, -, hupdated, -, -, hanchored, hextent⟩ :=
    hs.pushBack hhash hmode (hsize.trans (by decide)) hk hnamed hslot
  obtain rfl := Except.ok.inj (hpush.symm.trans hv)
  have hkey : k = Int64.ofNat (t.array.size + 1) :=
    Int64.toInt_inj.mp (hk.trans (toInt_ofNat_succ (by omega)).symm)
  have hadded : u.get (m.context hash) (.int (Int64.ofNat (t.array.size + 1))) ≠ .nil := by
    rw [← hkey, hupdated _ (Value.stored_int k), if_pos rfl]
    exact hvalue
  by_cases hanchor : t.anchored = true
  · -- Nothing follows the value, so it is the first beyond the limit if there is one.
    intro hlarge
    have hend : u.array.size = t.array.size + 1 := by
      rw [hanchored hanchor, Array.size_push]
    have hfull : t.array.size = 2 ^ maxArrayBits := by
      have hsize' : t.array.size ≤ 2 ^ maxArrayBits := hsize
      omega
    rw [← get_firstBeyond (m.context hash) husize hlarge, firstBeyond, ← hfull]
    exact hadded
  · have hfollowing := (hextent (by simpa using hanchor)).extend hadded
    exact filledBeyond_of_extent husize hsize hfollowing

/-- A write takes the array part beyond the limit only by a value. -/
theorem Placed.filledBeyond (h : Placed hash m t key value u) (hs : t.Sound hash m)
    (hhash : Value.RespectsEq hash) (hnamed : value.Named m.fresh)
    (hsize : t.array.size ≤ 2 ^ 31) : FilledBeyond u.array := by
  have husize := h.size_le hs
  cases h with
  | inArray => exact filledBeyond_of_le (Array.size_setIfInBounds.trans_le hsize)
  | appended hkey hk hvalue hmode hslot hpush =>
    subst hkey
    exact hs.filledBeyond_pushBack hhash hnamed hsize (by omega) hk hvalue hmode hslot hpush
  | unchanged => exact filledBeyond_of_le hsize
  | buried => exact filledBeyond_of_le hsize
  | dropped => exact filledBeyond_of_le hsize
  | assigned => exact filledBeyond_of_le hsize
  | inserted _ _ _ _ hu => exact filledBeyond_of_le (hu.array ▸ hsize)

/-- An attempt to write takes the array part beyond the limit only by a value. -/
theorem Attempt.filledBeyond {r : Except Error Bool} (h : Attempt hash m n t key value r u)
    (hmn : m ≤ n) (hhash : Value.RespectsEq hash) (hnamed : value.Named n.fresh)
    (hsize : t.array.size ≤ 2 ^ 31) : FilledBeyond u.array := by
  cases h with
  | stored hw hcleared hplaced =>
    exact hplaced.filledBeyond (hw.later hmn) hhash hnamed (hcleared.array ▸ hsize)
  | full _ hcleared => exact filledBeyond_of_le (hcleared.array ▸ hsize)
  | noSlot _ hcleared => exact filledBeyond_of_le (hcleared.array ▸ hsize)

namespace Sound

/-- So does a write that goes through a rehash, which leads back to within the limit. -/
theorem filledBeyond_storeKey (hs : t.Sound hash m) (hle : m ≤ c.clear)
    (hhash : Value.RespectsEq hash) (hkey : key.Stored) (hnamed : value.Named m.fresh)
    (hsize : t.array.size ≤ 2 ^ 31) : FilledBeyond (t.storeKey hash c key value).2.array := by
  have hnamed' : ∀ {n : Moment}, c.clear ≤ n → value.Named n.fresh :=
    fun hn ↦ hnamed.mono (Moment.fresh_le (hle.trans hn))
  have houtcome := (hs.later hle).storeKey_cases hhash hkey (hnamed' (le_refl _)) hsize
  generalize (t.storeKey hash c key value).1 = r at houtcome
  generalize (t.storeKey hash c key value).2 = u at houtcome ⊢
  cases houtcome with
  | stored h => exact h.filledBeyond c.clear_le hhash (hnamed' c.clear_le) hsize
  | rehashed _ hv hu =>
    exact hu.filledBeyond c.clearAgain_le hhash (hnamed' c.clear_le_last) hv.array_le
  | overflow h => exact h.filledBeyond c.clear_le hhash (hnamed' c.clear_le) hsize
  | noSlot h => exact h.filledBeyond c.clear_le hhash (hnamed' c.clear_le) hsize

/-- An insertion takes the array part beyond the limit by the last value of the list. -/
theorem filledBeyond_insertion (hs : t.Sound hash m) (hhash : Value.RespectsEq hash)
    (hnamed : value.Named m.fresh) (hsize : t.array.size ≤ 2 ^ 31) {position : Int64}
    {removed : Value}
    (h : t.insertion (m.context hash) position value = .ok (.inArray removed u)) :
    FilledBeyond u.array := by
  have husize := hs.size_insertion_le h
  obtain ⟨-, -, first, count, hfirst, hcount, -, hpos, hvalues, ⟨-, hend⟩ | ⟨hfull, hextent⟩⟩ :=
    hs.insertion_inArray hhash hsize hnamed rfl h
  · exact filledBeyond_of_le (hend.trans_le hsize)
  · refine filledBeyond_of_extent (by omega) hsize (hextent.extend ?_)
    -- The key after the old array part has the value that was the last one there.
    have hlast := (hs.isBorder_length hhash (hsize.trans (by decide))).1.last.resolve_left
      (by omega)
    have hpred : Int64.ofInt ((t.array.size : Int) + 1 - 1) =
        Int64.ofNat (t.length (m.context hash)) := by
      rw [Int.add_sub_cancel, hfull]
      exact Int64.ofInt_eq_ofNat
    rw [hvalues _ (Value.stored_int _), shiftedUp, toInt_ofNat_succ (by omega),
      if_neg (by omega), if_pos (by omega), hpred]
    exact hasInt_eq_true_iff.mp hlast

end Sound

/-- Being filled beyond the limit spreads. -/
theorem spreads_filledBeyond (hhash : Value.RespectsEq hash) : Spreads hash FilledBeyond where
  within _ hsize := filledBeyond_of_le hsize
  write hs hle hkey hnamed hsize := hs.filledBeyond_storeKey hle hhash hkey hnamed hsize
  insertion hs hnamed hsize hinArray := hs.filledBeyond_insertion hhash hnamed hsize hinArray

/-- A table that is reached is beyond the limit only with a value there. -/
theorem Reaches.filledBeyond (h : Reaches hash hint m t) (hhash : Value.RespectsEq hash) :
    FilledBeyond t.array :=
  (spreads_filledBeyond hhash).reaches hhash h

/-- The first key beyond the limit has a place in the array part exactly if that is not within
the limit. -/
theorem Reaches.arrayCapacity_le_iff (h : Reaches hash hint m t) (hhash : Value.RespectsEq hash) :
    t.arrayCapacity ≤ 2 ^ maxArrayBits ↔ ∀ v, (firstBeyond, v) ∉ t.arrayEntries := by
  have hsize : t.array.size < 2 ^ 63 := h.size_lt hhash
  constructor
  · intro hle v hentry
    obtain ⟨i, hi, hkey, -⟩ := mem_arrayEntries_iff.mp hentry
    have hbound : 2 ^ maxArrayBits + 1 < 2 ^ 63 := by decide
    have heq := Value.int_ofNat_inj hbound (by omega) hkey
    exact absurd (Nat.succ.inj heq ▸ hi) (Nat.not_lt.mpr hle)
  · intro hnone
    by_contra hlarge
    have hlarge' : 2 ^ maxArrayBits < t.array.size := Nat.lt_of_not_le hlarge
    exact hnone _ (mem_arrayEntries_iff.mpr ⟨_, hlarge', rfl, rfl, h.filledBeyond hhash hlarge'⟩)

/-- A table that is reached keeps to the limit of the array part, in itself and in all its rehashes,
exactly as long as the first key beyond the limit has no place in the array part. What a rehash
counts and asks for falls short of what there is by the entries beyond the limit, and it fails
exactly if it asks for nothing while there are such entries. -/
theorem Reaches.limit_is_exact (hhash : Value.RespectsEq hash) (h : Reaches hash hint m t) :
    (t.WithinLimit (m.context hash) ↔ ∀ v, (firstBeyond, v) ∉ t.arrayEntries) ∧
      ∀ mode extra, Tally (m.context hash) { t with mode } extra := by
  refine ⟨(withinLimit_iff _ t).trans (h.arrayCapacity_le_iff hhash), fun mode extra ↦ ?_⟩
  exact tally _ extra (h.size_lt hhash)

/-- The key beyond the limit goes to the hash part, and there the rehash finds it. -/
theorem Reaches.limit_is_exact_of_large_key :
    ∃ t, Reaches Value.hash 4 .origin t ∧ (∀ v, (firstBeyond, v) ∉ t.arrayEntries) ∧
      (firstBeyond, .bool true) ∈ t.hashEntries (Moment.origin.context Value.hash) ∧
      t.WithinLimit (Moment.origin.context Value.hash) ∧
      rehashTotal (Moment.origin.context Value.hash) { t with mode := ⟨true, false⟩ } none = 2 := by
  let write (t : Table) (key : Value) : Table :=
    (t.store Value.hash (.still .origin) key (.bool true)).2
  obtain ⟨t, ht, harray, hhash, htotal⟩ : ∃ t, Reaches Value.hash 4 .origin t ∧
      t.arrayEntries = [(.int 1, .bool true)] ∧
      t.hashEntries (Moment.origin.context Value.hash) = [(firstBeyond, .bool true)] ∧
      rehashTotal (Moment.origin.context Value.hash) { t with mode := ⟨true, false⟩ } none = 2 := by
    refine ⟨write (write (withHashSize 4) (.int 1)) firstBeyond, ?_, by decide +kernel,
      by decide +kernel, by decide +kernel⟩
    refine ((Reaches.new .origin).storeInline ?_ rfl rfl).storeInline ?_ rfl rfl
    all_goals decide +kernel
  have hnone : ∀ v, (firstBeyond, v) ∉ t.arrayEntries := by
    intro v hv
    rw [harray, List.mem_singleton] at hv
    have hkey : firstBeyond ≠ .int 1 := by decide +kernel
    exact hkey (congrArg Prod.fst hv)
  obtain ⟨hlimit, -⟩ := Reaches.limit_is_exact Value.rawEq_hash ht
  exact ⟨t, ht, hnone, by rw [hhash]; exact List.mem_singleton_self _, hlimit.mpr hnone, htotal⟩

/-! ## A run beyond the limit -/

/-- One more integer. -/
theorem listKeys_succ (n : Nat) :
    listKeys (n + 1) = listKeys n ++ [.int (Int64.ofNat (n + 1))] := by
  rw [listKeys, List.range_succ, List.map_append]
  rfl

/-- The entries of a table to which values were added. -/
theorem arrayEntries_appended (hvalue : value ≠ .nil) (n : Nat) :
    (appended 0 n value).arrayEntries = (listKeys n).map fun k ↦ (k, value) := by
  have hnil := Value.isNil_eq_false hvalue
  simp only [appended, arrayEntries, Array.toList_replicate]
  induction n with
  | zero => rfl
  | succ n ih =>
    rw [List.replicate_succ', List.zipIdx_append, List.filterMap_append, ih, listKeys_succ]
    simp [hnil, Nat.add_comm]

/-- It has as many keys as values were added. -/
theorem keyCount_appended (ctx : Context) (hvalue : value ≠ .nil) (n : Nat) :
    (appended 0 n value).keyCount ctx = n := by
  have hentries : (appended 0 n value).entries ctx = (appended 0 n value).arrayEntries :=
    List.append_nil _
  rw [keyCount, hentries, arrayEntries_appended hvalue, List.length_map, length_listKeys]

/-- Its keys are the integers from one on. -/
theorem map_fst_arrayEntries_appended (mode : WeakMode) (hvalue : value ≠ .nil) (n : Nat) :
    (arrayEntries { appended 0 n value with mode }).map Prod.fst = listKeys n := by
  have harray : arrayEntries { appended 0 n value with mode } = _ := arrayEntries_appended hvalue n
  rw [harray, List.map_map]
  exact List.map_id _

/-- Of the first integers, those within the limit are candidates. -/
theorem length_candidates_listKeys {n : Nat} (hn : n < 2 ^ 63) :
    ((listKeys n).filterMap arrayCandidate?).length = min n (2 ^ maxArrayBits) := by
  induction n with
  | zero => rfl
  | succ n ih =>
    rw [listKeys_succ, List.filterMap_append, List.length_append, ih (Nat.lt_of_succ_lt hn),
      List.filterMap_cons, arrayCandidate?_ofNat_succ hn]
    by_cases hle : n + 1 ≤ 2 ^ maxArrayBits
    · rw [if_pos hle, Nat.min_eq_left hle, Nat.min_eq_left (Nat.le_of_succ_le hle)]
      rfl
    · have hge : 2 ^ maxArrayBits ≤ n := Nat.le_of_lt_succ (Nat.lt_of_not_le hle)
      rw [if_neg hle, Nat.min_eq_right hge, Nat.min_eq_right (Nat.le_succ_of_le hge)]
      rfl

/-- If all keys within the limit are in use, the array part takes them. -/
theorem arraySizeFor_of_full {keys : List Value}
    (h : (keys.filterMap arrayCandidate?).length = 2 ^ maxArrayBits) :
    arraySizeFor (keys.filterMap arrayCandidate?) = (2 ^ maxArrayBits, 2 ^ maxArrayBits) := by
  have hall : ((keys.filterMap arrayCandidate?).countP fun n ↦ n ≤ 2 ^ maxArrayBits) =
      2 ^ maxArrayBits := by
    rw [← h, List.countP_eq_length]
    intro n hn
    simpa [h] using (candidate_bounds hn).2
  have hdense : 2 ^ maxArrayBits <
      2 * (keys.filterMap arrayCandidate?).countP fun n ↦ n ≤ 2 ^ maxArrayBits := by
    rw [hall]
    have := Nat.two_pow_pos maxArrayBits
    omega
  have hgreatest : IsGreatest (denseSizes
      (fun n ↦ (keys.filterMap arrayCandidate?).countP fun l ↦ l ≤ n) (maxArrayBits + 1))
      (2 ^ maxArrayBits) := isGreatest_denseSizes_pow hdense
  have hsize := (arraySizeFor_isGreatest (keys.filterMap arrayCandidate?)).unique hgreatest
  have hcount := (arraySizeFor_count (zero_notMem_filterMap keys)).2
  rw [hsize, hall] at hcount
  exact Prod.ext hsize hcount

/-- A rehash counts the values that were added up to the limit. -/
theorem rehashTotal_appended (ctx : Context) (mode : WeakMode) (hvalue : value ≠ .nil) {n : Nat}
    (hn : n < 2 ^ 63) :
    rehashTotal ctx { appended 0 n value with mode } none = min n (2 ^ maxArrayBits) := by
  have hhash : hashEntries ctx { appended 0 n value with mode } = [] := rfl
  rw [rehashTotal, map_fst_arrayEntries_appended mode hvalue, length_candidates_listKeys hn, hhash]
  rfl

/-- The keys that it finds are the integers from one on. -/
theorem rehashKeys_appended (ctx : Context) (mode : WeakMode) (hvalue : value ≠ .nil) (n : Nat) :
    rehashKeys ctx { appended 0 n value with mode } none = listKeys n :=
  (List.append_nil _).trans (map_fst_arrayEntries_appended mode hvalue n)

/-- A rehash with strong values asks for no buckets if the values that were added fill the array
part up to the limit. -/
theorem hashRequest_appended (ctx : Context) {mode : WeakMode} (hmode : mode.values = false)
    (hvalue : value ≠ .nil) {n : Nat} (hfull : 2 ^ maxArrayBits ≤ n) (hn : n < 2 ^ 63) :
    hashRequest ctx { appended 0 n value with mode } none = 0 := by
  have hcandidates := (length_candidates_listKeys hn).trans (Nat.min_eq_right hfull)
  have hstrong : ¬ ({ appended 0 n value with mode } : Table).mode.values = true := by simp [hmode]
  rw [hashRequest, if_neg hstrong, rehashKeys_appended ctx mode hvalue,
    arraySizeFor_of_full hcandidates, rehashTotal_appended ctx mode hvalue hn,
    Nat.min_eq_right hfull, Nat.sub_self]

/-- If the values that were added go beyond the limit, the keys cannot be made weak: the hash part
has no bucket for those beyond the limit. -/
theorem setMode_appended (ctx : Context) (hvalue : value ≠ .nil) {n : Nat}
    (hlarge : 2 ^ maxArrayBits < n) (hn : n < 2 ^ 63) :
    (appended 0 n value).setMode ctx ⟨true, false⟩ = .error (.fault .noBucket) := by
  have hmode : (⟨true, false⟩ : WeakMode) ≠ (appended 0 n value).mode := by
    show _ ≠ WeakMode.strong
    decide
  rw [setMode, if_neg hmode, rehash_eq_noBucket_iff ctx none (Array.size_replicate.trans_lt hn)]
  refine ⟨hashRequest_appended ctx rfl hvalue hlarge.le hn, fun hnil ↦ ?_⟩
  have htotal := rehashTotal_add_uncounted ctx
    { appended 0 n value with mode := ⟨true, false⟩ } none
  rw [hnil, rehashTotal_appended ctx _ hvalue hn, rehashKeys_appended ctx _ hvalue, length_listKeys,
    Nat.min_eq_right hlarge.le] at htotal
  exact hlarge.ne htotal

/-- One value more than the limit takes the array part beyond it. A rehash then counts one entry too
few, and the keys cannot be made weak. -/
theorem appends_pass_limit :
    ∃ t, Reaches Value.hash 0 .origin t ∧ t.arrayCapacity = 2 ^ maxArrayBits + 1 ∧
      (firstBeyond, .bool true) ∈ t.arrayEntries ∧
      t.keyCount (Moment.origin.context Value.hash) = 2 ^ maxArrayBits + 1 ∧
      rehashTotal (Moment.origin.context Value.hash) { t with mode := ⟨true, false⟩ } none =
        2 ^ maxArrayBits ∧
      t.setMode (Moment.origin.context Value.hash) ⟨true, false⟩ = .error (.fault .noBucket) := by
  have hlimit : 2 ^ maxArrayBits + 1 < 2 ^ 63 := by decide
  have hvalue : Value.bool true ≠ .nil := nofun
  refine ⟨appended 0 (2 ^ maxArrayBits + 1) (.bool true),
    reaches_appended _ _ hvalue (Value.named_of_inline rfl _) (Nat.le_refl _),
    Array.size_replicate, ?_, ?_, ?_, setMode_appended _ hvalue (Nat.lt_succ_self _) hlimit⟩
  · rw [arrayEntries_appended hvalue, listKeys_succ, List.map_append]
    exact List.mem_append_right _ (List.mem_singleton_self _)
  · exact keyCount_appended _ hvalue _
  · rw [rehashTotal_appended _ _ hvalue hlimit]
    exact Nat.min_eq_right (Nat.le_succ _)

end Table

end LuaData
