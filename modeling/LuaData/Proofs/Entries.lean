import Mathlib.Data.List.Perm.Basic
import LuaData.Proofs.Writing

/-!
# The entries of a table

`Table.linked` lists the slots of the hash part by bucket and chain. In a well-formed table it holds
every slot in use once (`Sound.linked_nodup`, `Sound.mem_linked_iff`), so that `Table.entries` holds
every key with a value once: `Sound.entries_pairwise` and `Sound.get_eq_iff`.
-/

namespace LuaData.Table

variable {hash : Value → UInt64} {m : Moment} {t : Table} {key value : Value}

/-- The slots of the hash part, by bucket and chain. -/
def linked (t : Table) : List Nat :=
  t.buckets.toList.flatten

/-- The chain of a bucket is one of the list of buckets. -/
theorem chain_eq_getElem (t : Table) {b : Nat} (hb : b < t.buckets.toList.length) :
    t.chain b = t.buckets.toList[b] := by
  have hb' : b < t.buckets.size := by simpa using hb
  simp [chain, Array.getD_eq_getD_getElem?, hb']

/-- A slot is linked if it is in a chain. -/
theorem mem_linked_iff_chain {i : Nat} : i ∈ t.linked ↔ ∃ b, i ∈ t.chain b := by
  simp only [linked, List.mem_flatten]
  constructor
  · rintro ⟨c, hc, hi⟩
    obtain ⟨b, hb, rfl⟩ := List.mem_iff_getElem.mp hc
    exact ⟨b, by rwa [t.chain_eq_getElem hb]⟩
  · rintro ⟨b, hi⟩
    have hb : b < t.buckets.toList.length := by simpa using lt_size_of_mem_chain hi
    exact ⟨t.chain b, by rw [t.chain_eq_getElem hb]; exact List.getElem_mem hb, hi⟩

/-- The entries of the hash part are those of the linked slots. -/
theorem hashEntries_eq (ctx : Context) (t : Table) :
    t.hashEntries ctx = t.linked.filterMap (t.arena.binding? ctx.alive) := by
  rw [linked, List.filterMap_flatten, hashEntries, List.flatMap_def]

/-- The entries of the array part are its values that are not nil. -/
theorem mem_arrayEntries_iff :
    (key, value) ∈ t.arrayEntries ↔
      ∃ i, i < t.array.size ∧ key = .int (Int64.ofNat (i + 1)) ∧ value = t.array.getD i .nil ∧
        value ≠ .nil := by
  simp only [arrayEntries, List.mem_filterMap, List.mem_zipIdx_iff_le_and_getElem?_sub, Prod.exists]
  constructor
  · rintro ⟨v, n, ⟨hn, hget⟩, hsome⟩
    split at hsome
    · cases hsome
    · rename_i hnil
      cases hsome
      obtain ⟨hlt, hv⟩ := List.getElem?_eq_some_iff.mp hget
      have hlt' : n - 1 < t.array.size := by simpa using hlt
      refine ⟨n - 1, hlt', ?_, ?_, ?_⟩
      · rw [Nat.sub_add_cancel hn]
      · rw [← hv]
        simp [Array.getD_eq_getD_getElem?, hlt']
      · rintro rfl
        exact hnil rfl
  · rintro ⟨i, hi, rfl, hv, hne⟩
    refine ⟨value, i + 1, ⟨by omega, ?_⟩, ?_⟩
    · rw [hv]
      simp [Array.getD_eq_getD_getElem?, hi]
    · simp [Value.isNil_eq_false hne]

/-- The integers up to the size of the array part have an index there. -/
theorem index?_of_lt {i : Nat} (hsize : t.array.size < 2 ^ 63) (hi : i < t.array.size) :
    t.index? (.int (Int64.ofNat (i + 1))) = some i :=
  index?_eq_some_iff.mpr ⟨_, rfl, toInt_ofNat_succ (by omega), hi⟩

/-- The keys of the array part are in order. -/
theorem arrayEntries_pairwise (hsize : t.array.size < 2 ^ 63) :
    t.arrayEntries.Pairwise fun e f ↦ e.1.content ≠ f.1.content := by
  rw [arrayEntries, List.pairwise_filterMap]
  have hidx : (t.array.toList.zipIdx 1).Pairwise fun a b ↦ a.2 < b.2 := by
    rw [← List.pairwise_map, List.zipIdx_map_snd]
    exact List.pairwise_lt_range'
  have hbound : ∀ a ∈ t.array.toList.zipIdx 1, a.2 < 2 ^ 63 := by
    rintro ⟨v, n⟩ ha
    obtain ⟨hn, hget⟩ := List.mem_zipIdx_iff_le_and_getElem?_sub.mp ha
    obtain ⟨hlt, -⟩ := List.getElem?_eq_some_iff.mp hget
    have : n - 1 < t.array.size := by simpa using hlt
    show n < 2 ^ 63
    omega
  refine List.Pairwise.imp_of_mem ?_ hidx
  rintro ⟨v, n⟩ ⟨w, l⟩ ha hb hlt e he f hf hcontent
  have hn := hbound _ ha
  have hl := hbound _ hb
  simp only at hn hl hlt he hf
  split at he
  · cases he
  split at hf
  · cases hf
  cases he
  cases hf
  have heq : Int64.ofNat n = Int64.ofNat l := by simpa [Value.content] using hcontent
  have := congrArg Int64.toInt heq
  rw [Int64.toInt_ofNat_of_lt hn, Int64.toInt_ofNat_of_lt hl] at this
  omega

namespace Sound

/-- A slot is linked if it is in use. -/
theorem mem_linked_iff (hs : t.Sound hash m) {i : Nat} :
    i ∈ t.linked ↔ t.arena.state i ≠ .free := by
  rw [mem_linked_iff_chain]
  constructor
  · rintro ⟨b, hb⟩
    exact ((hs.mem_chain_iff b i).mp hb).1
  · intro hstate
    exact ⟨_, (hs.mem_chain_iff _ i).mpr ⟨hstate, rfl⟩⟩

/-- No slot is linked twice. -/
theorem linked_nodup (hs : t.Sound hash m) : t.linked.Nodup := by
  rw [linked, List.nodup_flatten]
  constructor
  · intro c hc
    obtain ⟨b, hb, rfl⟩ := List.mem_iff_getElem.mp hc
    rw [← t.chain_eq_getElem hb]
    exact hs.chain_nodup b
  · rw [List.pairwise_iff_getElem]
    intro b b' hb hb' hlt i hi hi'
    rw [← t.chain_eq_getElem hb, hs.mem_chain_iff] at hi
    rw [← t.chain_eq_getElem hb', hs.mem_chain_iff] at hi'
    exact Nat.ne_of_lt hlt (hi.2.symm.trans hi'.2)

/-- The chains and the free list hold every slot once. -/
theorem linked_append_free_perm (hs : t.Sound hash m) :
    (t.linked ++ t.arena.free).Perm (List.range t.arena.slots.size) := by
  refine (List.perm_ext_iff_of_nodup ?_ List.nodup_range).mpr ?_
  · refine hs.linked_nodup.append hs.arena.free_nodup ?_
    intro i hi hfree
    exact hs.mem_linked_iff.mp hi ((hs.arena.mem_free_iff i).mp hfree).2
  · intro i
    rw [List.mem_append, hs.mem_linked_iff, hs.arena.mem_free_iff, List.mem_range]
    constructor
    · rintro (hstate | ⟨hlt, -⟩)
      · exact Arena.lt_size_of_state hstate
      · exact hlt
    · intro hlt
      by_cases hstate : t.arena.state i = .free
      · exact .inr ⟨hlt, hstate⟩
      · exact .inl hstate

/-- The entries of the hash part are those of the slots. -/
theorem mem_hashEntries_iff (hs : t.Sound hash m) :
    (key, value) ∈ t.hashEntries (m.context hash) ↔
      ∃ i, t.arena.binding? m.alive i = some (key, value) := by
  rw [hashEntries_eq, List.mem_filterMap]
  constructor
  · rintro ⟨i, -, hi⟩
    exact ⟨i, hi⟩
  · rintro ⟨i, hi⟩
    refine ⟨i, ?_, hi⟩
    rw [hs.mem_linked_iff]
    exact Arena.state_ne_free_of_key? (Arena.binding?_eq_some_iff.mp hi).1

/-- The keys of the hash part are different. -/
theorem hashEntries_pairwise (hs : t.Sound hash m) :
    (t.hashEntries (m.context hash)).Pairwise fun e f ↦ e.1.content ≠ f.1.content := by
  rw [hashEntries_eq, List.pairwise_filterMap]
  refine hs.linked_nodup.imp ?_
  rintro i j hij ⟨k, v⟩ he ⟨l, w⟩ hf hcontent
  exact hij (hs.distinct i j k l (Arena.binding?_eq_some_iff.mp he).1
    (Arena.binding?_eq_some_iff.mp hf).1 hcontent)

/-- An entry of the hash part has a stored key and a value, which have been named. -/
theorem binding?_fits (hs : t.Sound hash m) {i : Nat}
    (h : t.arena.binding? m.alive i = some (key, value)) :
    key.Stored ∧ key.Named m.fresh ∧ value ≠ .nil ∧ value.Named m.fresh ∧ t.index? key = none := by
  obtain ⟨hk, hv⟩ := Arena.binding?_eq_some_iff.mp h
  obtain ⟨hstored, hnamed, -⟩ := hs.key?_fits hk
  refine ⟨hstored, hnamed, hs.value?_ne_nil hv, ?_, ?_⟩
  · unfold Arena.value? at hv
    split at hv
    · rename_i handle value hstate
      rw [← Handle.target_of_get hv]
      exact ((hs.fits i).live handle value hstate).2.2.2
    · cases hv
  · obtain ⟨handle, hhandle, hget⟩ := Option.bind_eq_some_iff.mp hk
    unfold index?
    split
    · exact (hs.fits i).outside handle _ hhandle (Handle.target_of_get hget)
    · rfl

/-- What a table has under its stored keys is what its entries say. -/
theorem get_eq_iff (hs : t.Sound hash m) (hhash : Value.RespectsEq hash)
    (hsize : t.array.size < 2 ^ 63) (hkey : key.Stored) (hvalue : value ≠ .nil) :
    t.get (m.context hash) key = value ↔
      ∃ k, (k, value) ∈ t.entries (m.context hash) ∧ k.content = key.content := by
  rw [get_of_stored _ _ hkey]
  simp only [entries, List.mem_append]
  constructor
  · intro hget
    split at hget
    · rename_i i hi
      obtain ⟨n, rfl, hn, hlt⟩ := index?_eq_some_iff.mp hi
      refine ⟨.int n, .inl (mem_arrayEntries_iff.mpr ⟨i, hlt, ?_, hget.symm, hvalue⟩), rfl⟩
      rw [Int64.toInt_inj.mp (hn.trans (toInt_ofNat_succ (by omega)).symm)]
    · have hne := hvalue
      rw [← hget] at hne
      obtain ⟨i, k, hentry, hcontent⟩ := hs.entry_of_getFromHash hhash hkey hne
      rw [hget] at hentry
      exact ⟨k, .inr (hs.mem_hashEntries_iff.mpr ⟨i, hentry⟩), hcontent⟩
  · rintro ⟨k, hmem | hmem, hcontent⟩
    · obtain ⟨i, hi, rfl, hv, -⟩ := mem_arrayEntries_iff.mp hmem
      rw [← index?_of_content_eq t hcontent, index?_of_lt hsize hi, hv]
    · obtain ⟨i, hentry⟩ := hs.mem_hashEntries_iff.mp hmem
      have hindex : t.index? key = none := by
        rw [← index?_of_content_eq t hcontent]
        exact (hs.binding?_fits hentry).2.2.2.2
      rw [hindex]
      exact hs.getFromHash_of_entry hhash hkey hentry hcontent

/-- The keys of the entries are different. -/
theorem entries_pairwise (hs : t.Sound hash m) (hsize : t.array.size < 2 ^ 63) :
    (t.entries (m.context hash)).Pairwise fun e f ↦ e.1.content ≠ f.1.content := by
  rw [entries, List.pairwise_append]
  refine ⟨arrayEntries_pairwise hsize, hs.hashEntries_pairwise, ?_⟩
  rintro ⟨k, v⟩ he ⟨l, w⟩ hf hcontent
  obtain ⟨i, hi, rfl, -⟩ := mem_arrayEntries_iff.mp he
  obtain ⟨j, hentry⟩ := hs.mem_hashEntries_iff.mp hf
  have hindex := index?_of_lt hsize hi
  rw [index?_of_content_eq t hcontent, (hs.binding?_fits hentry).2.2.2.2] at hindex
  cases hindex

end Sound

end LuaData.Table
