import LuaData.Proofs.ListTables
import LuaData.Proofs.Refinement

/-!
# Filling a table

A new table that is given entries one after the other has those entries in the end, provided that no
write fails. A write of nil under a key that is not there does nothing, so only the other entries
count. `fill_list` is for values without a gap, which all go to the array part; `fill_holes` is for
values with gaps, for which the table is rehashed as it grows; and `fill_record` is for a table that
has been given room for all entries, so that it is never rehashed.
-/

namespace LuaData

namespace Contents

variable {entries : List (Value × Value)} {e : Value × Value} {key : Value}

/-- The map with the given entries, of which later ones replace earlier ones. -/
def ofEntries (entries : List (Value × Value)) : Contents :=
  entries.foldl (fun M e ↦ M.set e.1 e.2) .empty

/-- The last entry is written last. -/
theorem ofEntries_concat (entries : List (Value × Value)) (e : Value × Value) :
    ofEntries (entries ++ [e]) = (ofEntries entries).set e.1 e.2 := by
  rw [ofEntries, List.foldl_concat]
  rfl

/-- What the last entry changes. -/
theorem get_ofEntries_concat (he : e.1.Stored) (key : Value) :
    (ofEntries (entries ++ [e])).get key =
      if key.normal? = e.1.normal? then e.2 else (ofEntries entries).get key := by
  rw [ofEntries_concat, get_set]
  intro hno
  rw [← Value.normal?_eq_none_iff, Value.normal?_of_stored he] at hno
  cases hno

/-- A value of the map is that of an entry. -/
theorem exists_entry (hstored : ∀ e ∈ entries, e.1.Stored)
    (h : (ofEntries entries).get key ≠ .nil) :
    ∃ e ∈ entries, e.1.normal? = key.normal? ∧ e.2 = (ofEntries entries).get key := by
  induction entries using List.reverseRecOn with
  | nil =>
    refine absurd ?_ h
    unfold get
    split <;> rfl
  | append_singleton entries e ih =>
    have he := hstored e (List.mem_append_right _ List.mem_cons_self)
    rw [get_ofEntries_concat he] at h ⊢
    split
    · rename_i hnormal
      exact ⟨e, List.mem_append_right _ List.mem_cons_self, hnormal.symm, rfl⟩
    · rename_i hnormal
      rw [if_neg hnormal] at h
      obtain ⟨f, hf, hfnormal, hvalue⟩ :=
        ih (fun f hf ↦ hstored f (List.mem_append_left _ hf)) h
      exact ⟨f, List.mem_append_left _ hf, hfnormal, hvalue⟩

/-- Entries with different keys are in the map. -/
theorem get_entry (hstored : ∀ e ∈ entries, e.1.Stored)
    (hdistinct : entries.Pairwise fun e f ↦ e.1.normal? ≠ f.1.normal?) (he : e ∈ entries) :
    (ofEntries entries).get e.1 = e.2 := by
  induction entries using List.reverseRecOn with
  | nil => cases he
  | append_singleton entries f ih =>
    have hf := hstored f (List.mem_append_right _ List.mem_cons_self)
    obtain ⟨hentries, -, hother⟩ := List.pairwise_append.mp hdistinct
    rw [get_ofEntries_concat hf]
    rcases List.mem_append.mp he with he | he
    · rw [if_neg (hother e he f List.mem_cons_self)]
      exact ih (fun f hf ↦ hstored f (List.mem_append_left _ hf)) hentries he
    · rw [List.mem_singleton.mp he, if_pos rfl]

end Contents

namespace Table

variable {hash : Value → UInt64} {m : Moment} {t u : Table} {key value : Value}
  {entries done : List (Value × Value)} {e : Value × Value}

/-- Entries that can be stored: their keys are in stored form and different. -/
structure Storable (fresh : Ref) (entries : List (Value × Value)) : Prop where
  stored : ∀ e ∈ entries, e.1.Stored
  named : ∀ e ∈ entries, e.1.Named fresh ∧ e.2.Named fresh
  distinct : entries.Pairwise fun e f ↦ e.1.normal? ≠ f.1.normal?

/-- A plain table with the given entries. -/
structure Filled (hash : Value → UInt64) (m : Moment) (entries : List (Value × Value)) (t : Table) :
    Prop where
  plain : t.Plain hash m
  represents : Represents hash t (.ofEntries entries)

/-- The number of entries with a value. -/
def filledCount (entries : List (Value × Value)) : Nat :=
  entries.countP fun e ↦ !e.2.isNil

namespace Filled

/-- A new table has no entries. -/
theorem new (hash : Value → UInt64) (m : Moment) (hint : Nat) :
    Filled hash m [] (withHashSize hint) :=
  ⟨plain_withHashSize hash m hint, History.represents_withHashSize hash hint⟩

/-- The values that a filled table has are those of the entries. -/
theorem exists_entry (h : Filled hash m entries t) (hstored : ∀ e ∈ entries, e.1.Stored)
    (hne : t.valueOf hash key ≠ .nil) :
    ∃ e ∈ entries, e.1.normal? = key.normal? ∧ e.2 = t.valueOf hash key := by
  rw [h.represents.values] at hne ⊢
  exact Contents.exists_entry hstored hne

/-- A filled table has the entries. -/
theorem valueOf_entry (h : Filled hash m entries t) {fresh : Ref}
    (hstorable : Storable fresh entries) (he : e ∈ entries) : t.valueOf hash e.1 = e.2 := by
  rw [h.represents.values]
  exact Contents.get_entry hstorable.stored hstorable.distinct he

/-- A filled table has no more keys than it has been given values. -/
theorem keyCount_le (h : Filled hash m entries t) (hhash : Value.RespectsEq hash)
    (hstored : ∀ e ∈ entries, e.1.Stored) (hsize : t.array.size ≤ 2 ^ 62) :
    t.keyCount (m.context hash) ≤ filledCount entries := by
  have hs := h.plain.sound
  have hnodup : ((t.entries (m.context hash)).map fun e ↦ e.1.normal?).Nodup := by
    rw [List.Nodup, List.pairwise_map]
    exact hs.entries_pairwise_normal? (by omega)
  have hsubset : (t.entries (m.context hash)).map (fun e ↦ e.1.normal?) ⊆
      (entries.filter fun e ↦ !e.2.isNil).map fun e ↦ e.1.normal? := by
    intro k hk
    obtain ⟨⟨l, v⟩, hmem, rfl⟩ := List.mem_map.mp hk
    have hne := (hs.insertable hmem).ne_nil
    have hget := (hs.get_eq_iff_normal? hhash (by omega) l hne).mpr ⟨l, hmem, rfl⟩
    rw [h.plain.get_eq] at hget
    obtain ⟨f, hf, hnormal, hvalue⟩ := h.exists_entry hstored (hget ▸ hne)
    refine List.mem_map.mpr ⟨f, List.mem_filter.mpr ⟨hf, ?_⟩, hnormal⟩
    rw [hvalue, hget, Value.isNil_eq_false hne]
    rfl
  have hlength := (List.subperm_of_subset hnodup hsubset).length_le
  rwa [List.length_map, List.length_map, ← List.countP_eq_length_filter] at hlength

end Filled

/-! ## One write -/

namespace Plain

/-- The slots in use are those of keys. -/
theorem used_le_keyCount (h : t.Plain hash m) : t.arena.used ≤ t.keyCount (m.context hash) := by
  rw [h.used_eq, keyCount, Table.entries, List.length_append]
  exact Nat.le_add_left _ _

/-- A write that finds its place is done. -/
theorem set_of_place (h : t.Plain hash m) (hkey : key.Stored)
    (hplace : t.place (m.context hash) key value = .ok (.stored u)) :
    t.set (m.context hash) key value = .ok u := by
  simp only [Table.set, storedKey, show key.key? = some key from hkey, setKey, attempt,
    h.makeReady, hplace, bind, Except.bind, pure, Except.pure]

/-- A write that finds its place after a rehash is done. -/
theorem set_of_rehash (h : t.Plain hash m) (hkey : key.Stored)
    (hplace : t.place (m.context hash) key value = .ok (.full t)) {v : Table}
    (hrehash : t.rehash (m.context hash) (some key) = .ok v) (hv : v.Plain hash m)
    (hplace' : v.place (m.context hash) key value = .ok (.stored u)) :
    t.set (m.context hash) key value = .ok u := by
  simp only [Table.set, storedKey, show key.key? = some key from hkey, setKey, attempt,
    h.makeReady, hplace, hrehash, hv.makeReady, hplace', bind, Except.bind, pure, Except.pure]

/-- A write of nil under an absent key changes nothing. -/
theorem set_nil (h : t.Plain hash m) (hhash : Value.RespectsEq hash) (hkey : key.Stored)
    (habsent : t.valueOf hash key = .nil) : t.set (m.context hash) key .nil = .ok t := by
  refine h.set_of_place hkey ?_
  rcases destination_cases hash m t key .nil with
    ⟨i, hindex, hd⟩ | ⟨k, rfl, hk, hvalue, -⟩ | ⟨hindex, hd⟩
  · -- The place in the array part is empty already.
    have hempty : t.array.getD i .nil = .nil := by
      rw [← h.get_eq m, get_of_stored _ _ hkey, hindex] at habsent
      exact habsent
    have hsame : t.array.setIfInBounds i .nil = t.array := by
      refine Array.ext_getElem? fun k ↦ ?_
      by_cases hk : i = k
      · subst hk
        by_cases hlt : i < t.array.size
        · rw [Array.getElem?_setIfInBounds_self_of_lt hlt, Array.getElem?_eq_getElem hlt]
          simpa [Array.getD_eq_getD_getElem?, hlt, eq_comm] using hempty
        · simp [hlt]
      · rw [Array.getElem?_setIfInBounds_ne hk]
    simp only [place, hd, hsame, pure, Except.pure]
  · exact absurd rfl hvalue
  · have hslot := (h.slot?_eq_none_iff hhash hkey hindex).mpr habsent
    simp only [place, hd, placeInHash_eq, hslot, Value.isNil, if_true]

end Plain

/-- An entry that is about to be stored in a table that has been filled so far. -/
structure Next (hash : Value → UInt64) (m : Moment) (done : List (Value × Value))
    (e : Value × Value) (t : Table) : Prop where
  filled : Filled hash m done t
  stored : e.1.Stored
  named : e.1.Named m.fresh ∧ e.2.Named m.fresh
  absent : t.valueOf hash e.1 = .nil

namespace Next

/-- A value that is placed is one entry more. -/
theorem placed (h : Next hash m done e t) (hhash : Value.RespectsEq hash)
    (hsize : t.array.size ≤ 2 ^ 62) (hplaced : Placed hash m t e.1 e.2 u) :
    Filled hash m (done ++ [e]) u := by
  have ht := h.filled
  obtain ⟨hplain, -, hupdated⟩ := ht.plain.placed hhash h.stored h.named.1 h.named.2 hsize hplaced
  refine ⟨hplain, .of_stored hplain.mode fun k hk ↦ ?_⟩
  rw [← hplain.get_eq m, hupdated k hk, ht.plain.get_eq, ht.represents.valueOf_stored hk,
    Contents.ofEntries_concat]
  refine if_congr ?_ rfl rfl
  rw [Value.normal?_of_stored h.stored, Option.some.injEq, eq_comm]

/-- An entry without a value changes nothing. -/
theorem nil (h : Next hash m done e t) (he : e.2 = .nil) : Filled hash m (done ++ [e]) t := by
  have hvalues := h.filled.represents.values
  refine ⟨h.filled.plain, h.filled.represents.mode, fun key ↦ ?_⟩
  rw [Contents.get_ofEntries_concat h.stored, hvalues]
  split
  · rename_i hnormal
    have habsent := h.absent
    rw [hvalues] at habsent
    rw [he]
    unfold Contents.get at habsent ⊢
    rwa [hnormal]
  · rfl

end Next

/-! ## The size of the array part -/

/-- A write appends one value at most, unless the integer after its key is there. -/
theorem Placed.size_le_succ (h : Placed hash m t key value u) (hs : t.Sound hash m)
    (hhash : Value.RespectsEq hash) (hvalueNamed : value.Named m.fresh)
    (hsize : t.array.size ≤ 2 ^ 62)
    (habsent : ∀ k, key = .int k → k.toInt = t.array.size + 1 →
      t.get (m.context hash) (.int (Int64.ofNat (t.array.size + 2))) = .nil) :
    u.array.size ≤ t.array.size + 1 := by
  cases h with
  | inArray hindex => simp
  | @appended k _ hint hk _ hmode hslot hpush =>
    subst hint
    obtain ⟨u', hu', -, hupdated, -, -, hanchored, hextent⟩ :=
      hs.pushBack hhash hmode hsize hk hvalueNamed hslot
    obtain rfl := Except.ok.inj (hpush.symm.trans hu')
    by_cases h : t.anchored = true
    · rw [hanchored h]
      exact Nat.le_of_eq (Array.size_push ..)
    · -- The next integer would have been moved over, but it has no value.
      by_contra hlarge
      refine (hextent (by simpa using h)).filled (t.array.size + 2) (by omega) (by omega) ?_
      rw [hupdated _ (Value.stored_int _), if_neg]
      · exact habsent k rfl hk
      · intro heq
        have heq' : Int64.ofNat (t.array.size + 2) = k := by simpa using heq
        have htoInt := congrArg Int64.toInt heq'
        rw [Int64.toInt_ofNat_of_lt (by omega), hk] at htoInt
        omega
  | unchanged => exact Nat.le_succ _
  | buried => exact Nat.le_succ _
  | dropped => exact Nat.le_succ _
  | assigned => exact Nat.le_succ _
  | inserted _ _ _ _ hu =>
    rw [hu.array]
    exact Nat.le_succ _

/-- A write under another key than an integer leaves the array part. -/
theorem Placed.array_of_not_int (h : Placed hash m t key value u) (hkey : ∀ k, key ≠ .int k) :
    u.array = t.array := by
  cases h with
  | inArray hindex =>
    obtain ⟨k, hk, -⟩ := index?_eq_some_iff.mp hindex
    exact absurd hk (hkey k)
  | appended hint => exact absurd hint (hkey _)
  | unchanged => rfl
  | buried => rfl
  | dropped => rfl
  | assigned => rfl
  | inserted _ _ _ _ hu => exact hu.array

/-- The search for a size keeps to sizes that are more than half full. -/
theorem optimalSize_half (total : Nat) (counts : List Nat) (power seen : Nat) (best : Nat × Nat)
    (hbest : best.1 ≤ 2 * best.2) :
    (optimalSize total counts power seen best).1 ≤
      2 * (optimalSize total counts power seen best).2 := by
  induction counts generalizing power seen best with
  | nil => exact hbest
  | cons count counts ih =>
    simp only [optimalSize]
    split
    · exact hbest
    · refine ih _ _ _ ?_
      split
      · show power ≤ 2 * (seen + count)
        omega
      · exact hbest

/-- An array part is made for keys of which more than half are there. -/
theorem arraySizeFor_le {ns : List Nat} (h : 0 ∉ ns) : (arraySizeFor ns).1 ≤ 2 * ns.length := by
  have hhalf : (arraySizeFor ns).1 ≤ 2 * (arraySizeFor ns).2 :=
    optimalSize_half _ _ _ _ _ (Nat.le_refl _)
  have hcount : (arraySizeFor ns).2 ≤ ns.length := by
    rw [(arraySizeFor_count h).2]
    exact List.countP_le_length
  omega

/-- After a rehash at least half of the array part was in use, or will be. -/
theorem newArraySize_le_keyCount (ctx : Context) (t : Table) (extra : Option Value) :
    t.newArraySize ctx extra ≤ 2 * (t.keyCount ctx + extra.toList.length) := by
  unfold newArraySize
  split
  · exact Nat.zero_le _
  · refine (arraySizeFor_le (zero_notMem_filterMap _)).trans ?_
    refine Nat.mul_le_mul_left 2 ((List.length_filterMap_le _ _).trans (Nat.le_of_eq ?_))
    simp only [rehashKeys, keyCount, entries, List.length_append, List.length_map, Nat.add_assoc]

/-! ## All writes -/

/-- The entries are stored one after the other. -/
def setAll (ctx : Context) (t : Table) (entries : List (Value × Value)) : Except Error Table :=
  entries.foldlM (fun t (key, value) ↦ t.set ctx key value) t

/-- What every write keeps holds when all entries are stored. -/
theorem setAll_induction (P : List (Value × Value) → Table → Prop) {ctx : Context}
    (hstep : ∀ done e rest t, entries = done ++ e :: rest → P done t →
      ∃ u, t.set ctx e.1 e.2 = .ok u ∧ P (done ++ [e]) u)
    (hstart : P [] t) : ∃ u, t.setAll ctx entries = .ok u ∧ P entries u := by
  have hrun : ∀ rest done t, entries = done ++ rest → P done t →
      ∃ u, t.setAll ctx rest = .ok u ∧ P entries u := by
    intro rest
    induction rest with
    | nil =>
      intro done t hsplit h
      rw [hsplit, List.append_nil]
      exact ⟨t, rfl, h⟩
    | cons e rest ih =>
      intro done t hsplit h
      obtain ⟨u, hu, hP⟩ := hstep done e rest t hsplit h
      obtain ⟨w, hw, hPw⟩ := ih (done ++ [e]) u (by rw [hsplit, List.append_assoc]; rfl) hP
      refine ⟨w, ?_, hPw⟩
      simp only [setAll, List.foldlM_cons, hu, bind, Except.bind]
      exact hw
  exact hrun entries [] t rfl hstart

/-- In a table that has been filled with the entries before it, an entry is next. -/
theorem Storable.next {rest : List (Value × Value)} (h : Storable m.fresh (done ++ e :: rest))
    (ht : Filled hash m done t) : Next hash m done e t where
  filled := ht
  stored := h.stored e (List.mem_append_right _ List.mem_cons_self)
  named := h.named e (List.mem_append_right _ List.mem_cons_self)
  absent := by
    by_contra hne
    obtain ⟨f, hf, hnormal, -⟩ :=
      ht.exists_entry (fun f hf ↦ h.stored f (List.mem_append_left _ hf)) hne
    exact (List.pairwise_append.mp h.distinct).2.2 f hf e List.mem_cons_self hnormal

/-- A table is filled if each value can be stored. An entry without a value needs nothing but what
holds of the table before it. -/
theorem fill_induction (hhash : Value.RespectsEq hash) (h : Storable m.fresh entries) {hint : Nat}
    (P : List (Value × Value) → Table → Prop)
    (hnil : ∀ done e t, P done t → e.2 = .nil → P (done ++ [e]) t)
    (hstep : ∀ done e rest t, entries = done ++ e :: rest → Next hash m done e t → P done t →
      e.2 ≠ .nil → ∃ u, t.set (m.context hash) e.1 e.2 = .ok u ∧ Filled hash m (done ++ [e]) u ∧
        P (done ++ [e]) u)
    (hstart : P [] (withHashSize hint)) :
    ∃ t, (withHashSize hint).setAll (m.context hash) entries = .ok t ∧ Filled hash m entries t ∧
      P entries t := by
  refine setAll_induction (fun done t ↦ Filled hash m done t ∧ P done t) ?_
    ⟨.new hash m hint, hstart⟩
  intro done e rest t hsplit hinvariant
  obtain ⟨hfilled, hP⟩ := hinvariant
  have hnext := (hsplit ▸ h).next hfilled
  by_cases he : e.2 = .nil
  · refine ⟨t, ?_, hnext.nil he, hnil done e t hP he⟩
    rw [he]
    exact hfilled.plain.set_nil hhash hnext.stored hnext.absent
  · exact hstep done e rest t hsplit hnext hP he

/-! ## Records -/

/-- A table with room for all entries takes them without a rehash if no key is an integer. -/
theorem fill_record (hhash : Value.RespectsEq hash) (h : Storable m.fresh entries)
    (hkeys : ∀ e ∈ entries, ∀ k, e.1 ≠ .int k) (hcount : entries.length ≤ 2 ^ 32) :
    ∃ t, (withHashSize entries.length).setAll (m.context hash) entries = .ok t ∧
      Filled hash m entries t ∧ t.array.size = 0 := by
  have hroom : entries.length ≤ (withHashSize entries.length).buckets.size ∧
      (withHashSize entries.length).buckets.size ≤ 2 ^ 32 := by
    simp only [withHashSize, Array.size_replicate]
    split
    · omega
    · exact ⟨(ceilLog2_le_iff _ _).mp (Nat.le_refl _),
        Nat.pow_le_pow_right (by decide) ((ceilLog2_le_iff _ _).mpr hcount)⟩
  generalize hsize : (withHashSize entries.length).buckets.size = size at hroom
  suffices hall : ∃ t, (withHashSize entries.length).setAll (m.context hash) entries = .ok t ∧
      Filled hash m entries t ∧ t.array.size = 0 ∧ t.buckets.size = size by
    obtain ⟨t, ht, hfilled, harray, -⟩ := hall
    exact ⟨t, ht, hfilled, harray⟩
  refine fill_induction hhash h (fun _ t ↦ t.array.size = 0 ∧ t.buckets.size = size)
    (fun _ _ _ hP _ ↦ hP) ?_ ⟨rfl, hsize⟩
  intro done e rest t hsplit hnext hP hvalue
  obtain ⟨harray, hbuckets⟩ := hP
  have hplain := hnext.filled.plain
  rcases hplain.sound.place_cases hhash hnext.stored hnext.named.2 (by omega) with
    ⟨u, hplace, hplaced⟩ | ⟨-, -, -, -, hfull⟩ | ⟨-, -, -, hnames⟩
  · refine ⟨u, hplain.set_of_place hnext.stored hplace,
      hnext.placed hhash (by omega) hplaced, ?_, ?_⟩
    · rw [hplaced.array_of_not_int (hkeys e (hsplit ▸ by simp)), harray]
    · rw [(hplaced.frame hplain.sound hhash hnext.named.2 (by omega)).size, hbuckets]
  · -- There is a bucket for each entry.
    have hkeyCount := hnext.filled.keyCount_le hhash
      (fun f hf ↦ h.stored f (hsplit ▸ List.mem_append_left _ hf)) (by omega)
    have hdone : filledCount done ≤ done.length := List.countP_le_length
    have hused := hplain.used_le_keyCount
    have hlength := congrArg List.length hsplit
    rw [List.length_append, List.length_cons] at hlength
    omega
  · omega

/-! ## Lists -/

/-- Values under the integers from a number on. -/
def listEntries : (i : Nat) → List Value → List (Value × Value)
  | _, [] => []
  | i, v :: rest => (.int (Int64.ofNat i), v) :: listEntries (i + 1) rest

/-- The entries of values by index. -/
theorem getElem?_listEntries (i : Nat) (values : List Value) (k : Nat) :
    (listEntries i values)[k]? = values[k]?.map fun v ↦ (.int (Int64.ofNat (i + k)), v) := by
  induction values generalizing i k with
  | nil => rfl
  | cons v rest ih =>
    cases k with
    | zero => rfl
    | succ k =>
      show (listEntries (i + 1) rest)[k]? = rest[k]?.map _
      rw [ih, Nat.add_right_comm, Nat.add_assoc]

/-- The values of the entries. -/
theorem map_snd_listEntries (i : Nat) (values : List Value) :
    (listEntries i values).map Prod.snd = values := by
  induction values generalizing i with
  | nil => rfl
  | cons v rest ih => rw [listEntries, List.map_cons, ih]

/-- There is an entry for each value. -/
theorem length_listEntries (i : Nat) (values : List Value) :
    (listEntries i values).length = values.length := by
  rw [← List.length_map Prod.snd, map_snd_listEntries]

/-- The number of values of a list. -/
theorem filledCount_listEntries (i : Nat) (values : List Value) :
    filledCount (listEntries i values) = values.countP fun v ↦ !v.isNil := by
  rw [filledCount, ← map_snd_listEntries i values, List.countP_map, map_snd_listEntries]
  rfl

/-- The entries of a list and its values. -/
theorem mem_listEntries_iff {values : List Value} :
    e ∈ listEntries 1 values ↔
      ∃ k, values[k]? = some e.2 ∧ e.1 = .int (Int64.ofNat (k + 1)) := by
  rw [List.mem_iff_getElem?]
  refine exists_congr fun k ↦ ?_
  rw [getElem?_listEntries, Option.map_eq_some_iff, Nat.add_comm 1 k]
  constructor
  · intro h
    obtain ⟨v, hv, rfl⟩ := h
    exact ⟨hv, rfl⟩
  · intro h
    exact ⟨e.2, h.1, Prod.ext h.2.symm rfl⟩

/-- The values of a list can be stored. -/
theorem storable_listEntries {fresh : Ref} {values : List Value} (hlength : values.length < 2 ^ 63)
    (hnamed : ∀ v ∈ values, v.Named fresh) : Storable fresh (listEntries 1 values) where
  stored := fun e he ↦ by
    obtain ⟨k, -, hkey⟩ := mem_listEntries_iff.mp he
    rw [hkey]
    exact Value.stored_int _
  named := fun e he ↦ by
    obtain ⟨k, hvalue, hkey⟩ := mem_listEntries_iff.mp he
    rw [hkey]
    exact ⟨nofun, hnamed _ (List.mem_of_getElem? hvalue)⟩
  distinct := by
    rw [List.pairwise_iff_getElem]
    intro i j hi hj hlt heq
    rw [length_listEntries] at hi hj
    have hentry : ∀ k (hk : k < values.length) (hk' : k < (listEntries 1 values).length),
        ((listEntries 1 values).get ⟨k, hk'⟩).1.normal? =
          some (.int (Int64.ofNat (1 + k))) := by
      intro k hk hk'
      have hget := getElem?_listEntries 1 values k
      rw [List.getElem?_eq_getElem hk', List.getElem?_eq_getElem hk] at hget
      rw [List.get_eq_getElem, Option.some.inj hget]
      rfl
    have heq' := (hentry i hi _).symm.trans (heq.trans (hentry j hj _))
    have := Value.int_ofNat_inj (by omega) (by omega) (Option.some.inj heq')
    omega

/-- The key of the next value of a list. -/
theorem key_of_listEntries {values : List Value} {rest : List (Value × Value)}
    (h : listEntries 1 values = done ++ e :: rest) :
    e.1 = .int (Int64.ofNat (done.length + 1)) ∧ done.length < values.length := by
  have hlength := congrArg List.length h
  rw [length_listEntries, List.length_append, List.length_cons] at hlength
  have hget := getElem?_listEntries 1 values done.length
  rw [h, List.getElem?_append_right (Nat.le_refl _), Nat.sub_self, List.getElem?_cons_zero] at hget
  obtain ⟨v, -, hv⟩ := Option.map_eq_some_iff.mp hget.symm
  rw [← hv, Nat.add_comm]
  exact ⟨rfl, by omega⟩

/-- The first values of a list are under the first integers. -/
theorem Filled.absent_of_lt {values : List Value} {rest : List (Value × Value)}
    (hsplit : listEntries 1 values = done ++ rest) (hlength : values.length < 2 ^ 63)
    (h : Filled hash m done t) {n : Nat} (hn : done.length < n) (hlt : n < 2 ^ 63) :
    t.valueOf hash (.int (Int64.ofNat n)) = .nil := by
  have hentry : ∀ f ∈ done, ∃ k, k < done.length ∧ f.1 = .int (Int64.ofNat (k + 1)) := by
    intro f hf
    obtain ⟨k, hk⟩ := List.mem_iff_getElem?.mp hf
    obtain ⟨hk', -⟩ := List.getElem?_eq_some_iff.mp hk
    have hget := getElem?_listEntries 1 values k
    rw [hsplit, List.getElem?_append_left hk', hk] at hget
    obtain ⟨v, -, hv⟩ := Option.map_eq_some_iff.mp hget.symm
    rw [← hv, Nat.add_comm]
    exact ⟨k, hk', rfl⟩
  by_contra hne
  obtain ⟨f, hf, hnormal, -⟩ := h.exists_entry (fun f hf ↦ by
    obtain ⟨k, -, hk⟩ := hentry f hf
    rw [hk]
    exact Value.stored_int _) hne
  obtain ⟨k, hk, hkey⟩ := hentry f hf
  have hdone : done.length ≤ values.length := by
    have := congrArg List.length hsplit
    rw [length_listEntries, List.length_append] at this
    omega
  rw [hkey] at hnormal
  have := Value.int_ofNat_inj (by omega) hlt (Option.some.inj hnormal)
  omega

/-- The value after the end of a plain table is appended. -/
theorem Plain.set_append (h : t.Plain hash m) (hhash : Value.RespectsEq hash)
    (hsize : t.array.size ≤ 2 ^ 62) {k : Int64} (hk : k.toInt = t.array.size + 1)
    (hvalue : value ≠ .nil) (hnamed : value.Named m.fresh)
    (habsent : t.valueOf hash (.int k) = .nil) :
    ∃ u, t.set (m.context hash) (.int k) value = .ok u ∧ Placed hash m t (.int k) value u ∧
      t.array.size + 1 ≤ u.array.size := by
  have hindex : t.arrayIndex? k = none := by
    unfold arrayIndex?
    rw [hk]
    exact if_neg (by omega)
  have hslot := (h.slot?_eq_none_iff hhash (Value.stored_int k) hindex).mpr habsent
  have hmode : t.mode.values = false := by
    rw [h.mode]
    rfl
  have hholds : t.hashHolds (m.context hash) (.int k) = false := by
    show (t.slot? _ _).isSome = false
    rw [hslot]
    rfl
  have hdestination : t.destination (m.context hash) (.int k) value = .arrayEnd := by
    simp [destination, hindex, hk, Value.isNil_eq_false hvalue, hmode, hholds]
  obtain ⟨u, hu, -, -, -, hprefix, -⟩ := h.sound.pushBack hhash hmode hsize hk hnamed hslot
  refine ⟨u, h.set_of_place (Value.stored_int k) ?_, .appended rfl hk hvalue hmode hslot hu, ?_⟩
  · simp [place, hdestination, hu, bind, Except.bind, pure, Except.pure]
  · have := hprefix.length_le
    rwa [List.length_append, Array.length_toList, Array.length_toList] at this

/-- The next value of a list adds one place to the array part at most. -/
theorem Next.size_le (h : Next hash m done e t) (hhash : Value.RespectsEq hash)
    {values : List Value} {rest : List (Value × Value)}
    (hsplit : listEntries 1 values = done ++ e :: rest)
    (hlength : values.length ≤ 2 ^ 62) (hsize : t.array.size ≤ 2 ^ 62)
    (hplaced : Placed hash m t e.1 e.2 u) : u.array.size ≤ t.array.size + 1 := by
  obtain ⟨hkey, hdone⟩ := key_of_listEntries hsplit
  refine hplaced.size_le_succ h.filled.plain.sound hhash h.named.2 hsize fun k hk hend ↦ ?_
  -- No later value has been stored.
  have hk' : Int64.ofNat (done.length + 1) = k := by simpa [hkey] using hk
  rw [← hk', Int64.toInt_ofNat_of_lt (by omega)] at hend
  rw [h.filled.plain.get_eq]
  exact h.filled.absent_of_lt hsplit (by omega) (by omega) (by omega)

/-- Values without a gap go to the array part one after the other, however many there are. -/
theorem fill_list (hhash : Value.RespectsEq hash) {values : List Value}
    (hlength : values.length ≤ 2 ^ 62) (hnamed : ∀ v ∈ values, v.Named m.fresh)
    (hgap : values.Pairwise fun v w ↦ v = .nil → w = .nil) :
    ∃ t, (withHashSize 0).setAll (m.context hash) (listEntries 1 values) = .ok t ∧
      Filled hash m (listEntries 1 values) t ∧ t.array.size ≤ 2 ^ 62 := by
  have h := storable_listEntries (by omega) hnamed
  have hgap' : (listEntries 1 values).Pairwise fun e f ↦ e.2 = .nil → f.2 = .nil := by
    rw [← map_snd_listEntries 1 values, List.pairwise_map] at hgap
    exact hgap
  suffices hall : ∃ t, (withHashSize 0).setAll (m.context hash) (listEntries 1 values) = .ok t ∧
      Filled hash m (listEntries 1 values) t ∧ t.array.size ≤ (listEntries 1 values).length ∧
      ((∀ f ∈ listEntries 1 values, f.2 ≠ .nil) →
        t.array.size = (listEntries 1 values).length) by
    obtain ⟨t, ht, hfilled, hsize, -⟩ := hall
    rw [length_listEntries] at hsize
    exact ⟨t, ht, hfilled, by omega⟩
  refine fill_induction hhash h (fun done t ↦ t.array.size ≤ done.length ∧
    ((∀ f ∈ done, f.2 ≠ .nil) → t.array.size = done.length)) ?_ ?_ ⟨Nat.le_refl _, fun _ ↦ rfl⟩
  · intro done e t hP he
    refine ⟨?_, fun hall ↦ absurd he (hall e (by simp))⟩
    rw [List.length_append]
    exact Nat.le_add_right_of_le hP.1
  intro done e rest t hsplit hnext hP hvalue
  obtain ⟨hsize, hfull⟩ := hP
  obtain ⟨hkey, hdone⟩ := key_of_listEntries hsplit
  -- No value before this one is missing, so the array part ends right before it.
  have hbefore : ∀ f ∈ done, f.2 ≠ .nil := by
    intro f hf hfnil
    rw [hsplit] at hgap'
    exact hvalue ((List.pairwise_append.mp hgap').2.2 f hf e List.mem_cons_self hfnil)
  have hend := hfull hbefore
  have hk : (Int64.ofNat (done.length + 1)).toInt = t.array.size + 1 := by
    rw [Int64.toInt_ofNat_of_lt (by omega), hend]
    rfl
  have hplain := hnext.filled.plain
  obtain ⟨u, hu, hplaced, hle⟩ := hplain.set_append hhash (by omega) hk hvalue hnext.named.2
    (hkey ▸ hnext.absent)
  rw [← hkey] at hu hplaced
  have hsucc := hnext.size_le hhash hsplit (by omega) (by omega) hplaced
  refine ⟨u, hu, hnext.placed hhash (by omega) hplaced, ?_, fun _ ↦ ?_⟩
  · rw [List.length_append, List.length_singleton]
    omega
  · rw [List.length_append, List.length_singleton]
    omega

/-- The number of values grows with each value. -/
theorem filledCount_concat (hvalue : e.2 ≠ .nil) :
    filledCount (done ++ [e]) = filledCount done + 1 := by
  rw [filledCount, List.countP_append, List.countP_singleton, Value.isNil_eq_false hvalue]
  rfl

/-- A rehash leaves a filled table with its entries. -/
theorem Filled.rebuilt (h : Filled hash m done t) (hhash : Value.RespectsEq hash)
    (hrebuilt : Rebuilt hash m t t.mode (some key) u) : Filled hash m done u := by
  have hplain : u.Plain hash m :=
    ⟨hrebuilt.sound, hrebuilt.mode_eq.trans h.plain.mode, hrebuilt.anchored⟩
  refine ⟨hplain, .of_stored hplain.mode fun k hk ↦ ?_⟩
  rw [← hplain.get_eq m, hrebuilt.same_of_mode h.plain.sound hhash k hk, h.plain.get_eq,
    h.represents.valueOf_stored hk]

/-- After a rehash the entry is still next. -/
theorem Next.rebuilt (h : Next hash m done e t) (hhash : Value.RespectsEq hash)
    (hrebuilt : Rebuilt hash m t t.mode (some key) u) : Next hash m done e u where
  filled := h.filled.rebuilt hhash hrebuilt
  stored := h.stored
  named := h.named
  absent := by
    rw [(h.filled.rebuilt hhash hrebuilt).represents.values, ← h.filled.represents.values]
    exact h.absent

/-- What holds of a table while values with gaps are stored: the array part is never much larger
than twice their number, and the hash part is within the limit of a rehash. -/
structure Compact (done : List (Value × Value)) (t : Table) : Prop where
  array : t.array.size ≤ 2 * filledCount done + 1
  buckets : t.buckets.size ≤ 2 ^ 30

/-- The next value of a list is stored, after a rehash if there is no room for it. -/
theorem Next.set_compact (h : Next hash m done e t) (hhash : Value.RespectsEq hash)
    {values : List Value} {rest : List (Value × Value)}
    (hsplit : listEntries 1 values = done ++ e :: rest) (hlength : values.length ≤ 2 ^ 62)
    (hstored : ∀ f ∈ done, f.1.Stored) (hcount : filledCount done < 2 ^ 30) (ht : Compact done t)
    (hvalue : e.2 ≠ .nil) :
    ∃ u, t.set (m.context hash) e.1 e.2 = .ok u ∧ Filled hash m (done ++ [e]) u ∧
      Compact (done ++ [e]) u := by
  obtain ⟨hsize, hbuckets⟩ := ht
  -- The value may be placed in this table or in a rebuilt one.
  have hplace : ∀ {w u : Table}, Next hash m done e w → w.array.size ≤ 2 * filledCount done + 2 →
      w.buckets.size ≤ 2 ^ 30 → Placed hash m w e.1 e.2 u →
      Filled hash m (done ++ [e]) u ∧ Compact (done ++ [e]) u := by
    intro w u hw hwsize hwbuckets hplaced
    have hframe := hplaced.frame hw.filled.plain.sound hhash h.named.2 (by omega)
    have hsucc := hw.size_le hhash hsplit hlength (by omega) hplaced
    refine ⟨hw.placed hhash (by omega) hplaced, ?_, hframe.size ▸ hwbuckets⟩
    rw [filledCount_concat hvalue]
    omega
  have hplain := h.filled.plain
  rcases hplain.sound.place_cases hhash h.stored h.named.2 (by omega) with
    ⟨u, hu, hplaced⟩ | ⟨hfull, -⟩ | ⟨-, -, -, hnames⟩
  · exact ⟨u, hplain.set_of_place h.stored hu, hplace h (by omega) hbuckets hplaced⟩
  · have hkeyCount := h.filled.keyCount_le hhash hstored (by omega)
    rcases hplain.sound.rehash hhash (by omega) t.mode (some e.1) with
      ⟨-, hlarge⟩ | ⟨v, hv, hrebuilt⟩
    · -- So many values have not been stored.
      have hmany := lt_keyCount_of_lt_newHashCount hlarge
      simp only [Option.toList_some, List.length_singleton, maxHashBits] at hmany
      omega
    · have hnext := h.rebuilt hhash hrebuilt
      have hvsize : v.array.size ≤ 2 * filledCount done + 2 := by
        have hnew := newArraySize_le_keyCount (m.context hash) t (some e.1)
        rw [hrebuilt.array_size]
        simp only [Option.toList_some, List.length_singleton] at hnew
        refine hnew.trans ?_
        omega
      rcases hnext.filled.plain.sound.place_cases hhash h.stored h.named.2 (by omega) with
        ⟨u, hu, hplaced⟩ | ⟨-, hindex, -, -, hroom⟩ | ⟨-, -, -, hnames⟩
      · exact ⟨u, hplain.set_of_rehash h.stored hfull hv hnext.filled.plain hu,
          hplace hnext hvsize hrebuilt.buckets_le hplaced⟩
      · have := hrebuilt.room e.1 rfl hindex
        omega
      · have := hrebuilt.buckets_le
        omega
  · omega

/-- Values with gaps are stored if they are not too many. -/
theorem fill_holes (hhash : Value.RespectsEq hash) {values : List Value}
    (hlength : values.length ≤ 2 ^ 62) (hnamed : ∀ v ∈ values, v.Named m.fresh)
    (hcount : filledCount (listEntries 1 values) ≤ 2 ^ 30) :
    ∃ t, (withHashSize 0).setAll (m.context hash) (listEntries 1 values) = .ok t ∧
      Filled hash m (listEntries 1 values) t ∧ t.array.size ≤ 2 ^ 62 := by
  have h := storable_listEntries (by omega) hnamed
  suffices hall : ∃ t, (withHashSize 0).setAll (m.context hash) (listEntries 1 values) = .ok t ∧
      Filled hash m (listEntries 1 values) t ∧ Compact (listEntries 1 values) t by
    obtain ⟨t, ht, hfilled, hcompact⟩ := hall
    have hsize := hcompact.array
    exact ⟨t, ht, hfilled, by omega⟩
  refine fill_induction hhash h Compact (fun done e t hP _ ↦ ⟨?_, hP.buckets⟩) ?_
    ⟨Nat.zero_le _, Nat.zero_le _⟩
  · have hsize := hP.array
    rw [filledCount, List.countP_append]
    show t.array.size ≤ 2 * (filledCount done + _) + 1
    omega
  intro done e rest t hsplit hnext hcompact hvalue
  refine hnext.set_compact hhash hsplit hlength
    (fun f hf ↦ h.stored f (hsplit ▸ List.mem_append_left _ hf)) ?_ hcompact hvalue
  rw [hsplit, filledCount, List.countP_append, List.countP_cons, Value.isNil_eq_false hvalue]
    at hcount
  simp only [Bool.not_false, if_true] at hcount
  show done.countP _ < 2 ^ 30
  omega

end Table

end LuaData
