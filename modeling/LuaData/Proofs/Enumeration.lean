import LuaData.Proofs.Operations

/-!
# The order of an enumeration

An enumeration passes the keys of the array part in order and then the keys of the linked slots,
live or dead. `Table.stops` lists these keys with their values, nil for those that have none. The
entry after a key is the first stop behind it that is filled: `Sound.next_eq_of_stop`. A key that is
no stop cannot be gone on from: `Sound.next_eq_error`.
-/

namespace LuaData

/-- What an enumeration finds at a slot: its key, unless that is gone, with its value or nil. -/
def Arena.stop? (alive : Ref → Bool) (a : Arena) (i : Nat) : Option (Value × Value) :=
  (a.key? alive i).map fun k ↦ (k, (a.value? alive i).getD .nil)

namespace Table

variable {hash : Value → UInt64} {m : Moment} {t u : Table} {key : Value}

/-- The keys of the array part with their values. -/
def arrayStops (t : Table) : List (Value × Value) :=
  (t.array.toList.zipIdx 1).map fun (v, i) ↦ (.int (Int64.ofNat i), v)

/-- The keys of the linked slots with their values. -/
def hashStops (ctx : Context) (t : Table) : List (Value × Value) :=
  t.linked.filterMap (t.arena.stop? ctx.alive)

/-- The keys that an enumeration passes, with their values. -/
def stops (ctx : Context) (t : Table) : List (Value × Value) :=
  t.arrayStops ++ t.hashStops ctx

/-- A stop with a value. -/
def filled (e : Value × Value) : Bool :=
  !e.2.isNil

/-! ## Scanning -/

/-- The array part from an index on. -/
theorem find?_drop_arrayStops (t : Table) (i : Nat) :
    (t.arrayStops.drop i).find? filled =
      (t.firstIndexFrom? i).map fun j ↦ (.int (Int64.ofNat (j + 1)), t.array.getD j .nil) := by
  have hcons : ∀ i, i < t.array.size → t.arrayStops.drop i =
      (.int (Int64.ofNat (i + 1)), t.array.getD i .nil) :: t.arrayStops.drop (i + 1) := by
    intro i hi
    rw [List.drop_eq_getElem_cons (by simpa [arrayStops] using hi)]
    congr 1
    simp [arrayStops, Array.getD_eq_getD_getElem?, hi, Nat.add_comm]
  fun_induction firstIndexFrom? t i with
  | case1 i hi hnil ih =>
    rw [hcons i hi, List.find?_cons_of_neg, ih]
    simpa [filled] using hnil
  | case2 i hi hvalue =>
    rw [hcons i hi, List.find?_cons_of_pos]
    · rfl
    · simpa [filled] using hvalue
  | case3 i hi =>
    rw [List.drop_eq_nil_of_le (by simpa [arrayStops] using Nat.le_of_not_lt hi)]
    rfl

/-- The hash part from a bucket on. -/
theorem firstFromBucket?_eq (ctx : Context) (t : Table) (b : Nat) :
    t.firstFromBucket? ctx b =
      (t.buckets.toList.drop b).flatten.findSome? (t.arena.binding? ctx.alive) := by
  have hcons : ∀ b, b < t.buckets.size → t.buckets.toList.drop b =
      t.chain b :: t.buckets.toList.drop (b + 1) := by
    intro b hb
    have hb' : b < t.buckets.toList.length := by simpa using hb
    rw [List.drop_eq_getElem_cons hb', t.chain_eq_getElem hb']
  fun_induction firstFromBucket? ctx t b with
  | case1 b hb entry hentry =>
    unfold firstInChain? at hentry
    rw [hcons b hb, List.flatten_cons, List.findSome?_append, hentry]
    rfl
  | case2 b hb hnone ih =>
    unfold firstInChain? at hnone
    rw [hcons b hb, List.flatten_cons, List.findSome?_append, hnone, ih]
    rfl
  | case3 b hb =>
    rw [List.drop_eq_nil_of_le (by simpa using Nat.le_of_not_lt hb)]
    rfl

/-- A scan of the hash part finds the first entry, and remembers that it found one. -/
theorem scanHash_eq (ctx : Context) (t : Table) (b : Nat) (chain : List Nat) :
    t.scanHash ctx b chain =
      match (chain ++ (t.buckets.toList.drop (b + 1)).flatten).findSome?
        (t.arena.binding? ctx.alive) with
      | some e => (some e, { t with anchored := true })
      | none => (none, t) := by
  rw [List.findSome?_append, ← firstFromBucket?_eq]
  rfl

namespace Sound

/-- A slot has an entry if it is a filled stop. -/
theorem binding?_eq_filter (hs : t.Sound hash m) (i : Nat) :
    t.arena.binding? m.alive i = (t.arena.stop? m.alive i).filter filled := by
  unfold Arena.stop?
  cases hkey : t.arena.key? m.alive i with
  | none =>
    cases hbinding : t.arena.binding? m.alive i with
    | none => rfl
    | some e =>
      rw [(Arena.binding?_eq_some_iff.mp hbinding).1] at hkey
      cases hkey
  | some k =>
    cases hvalue : t.arena.value? m.alive i with
    | none =>
      cases hbinding : t.arena.binding? m.alive i with
      | none => rfl
      | some e =>
        rw [(Arena.binding?_eq_some_iff.mp hbinding).2] at hvalue
        cases hvalue
    | some v =>
      rw [Arena.binding?_eq_some_iff.mpr ⟨hkey, hvalue⟩]
      simp [filled, Option.filter, Value.isNil_eq_false (hs.value?_ne_nil hvalue)]

/-- The first entry of a list of slots is the first of its stops that is filled. -/
theorem findSome?_binding? (hs : t.Sound hash m) (slots : List Nat) :
    slots.findSome? (t.arena.binding? m.alive) =
      (slots.filterMap (t.arena.stop? m.alive)).find? filled := by
  induction slots with
  | nil => rfl
  | cons i slots ih =>
    rw [List.findSome?_cons, hs.binding?_eq_filter, ih]
    cases hstop : t.arena.stop? m.alive i with
    | none => simp [hstop]
    | some e => cases hfilled : filled e <;> simp [hstop, Option.filter, hfilled]

/-- A scan of the hash part finds the first stop that is filled. -/
theorem scanHash (hs : t.Sound hash m) (b : Nat) (chain : List Nat) :
    t.scanHash (m.context hash) b chain =
      match ((chain ++ (t.buckets.toList.drop (b + 1)).flatten).filterMap
        (t.arena.stop? m.alive)).find? filled with
      | some e => (some e, { t with anchored := true })
      | none => (none, t) := by
  rw [scanHash_eq, ← hs.findSome?_binding?]
  rfl

/-- A scan of the whole hash part. -/
theorem scanHash_zero (hs : t.Sound hash m) :
    t.scanHash (m.context hash) 0 (t.chain 0) =
      match (t.hashStops (m.context hash)).find? filled with
      | some e => (some e, { t with anchored := true })
      | none => (none, t) := by
  have hlinked : t.chain 0 ++ (t.buckets.toList.drop 1).flatten = t.linked := by
    unfold linked
    cases hbuckets : t.buckets.toList with
    | nil =>
      have : t.buckets.size = 0 := by
        rw [← Array.length_toList, hbuckets]
        rfl
      simp [chain, Array.getD_eq_getD_getElem?, Array.getElem?_eq_none (Nat.le_of_eq this)]
    | cons c cs =>
      have hlt : 0 < t.buckets.toList.length := by simp [hbuckets]
      rw [t.chain_eq_getElem hlt]
      simp [hbuckets]
  rw [hs.scanHash 0, Nat.zero_add, hlinked]
  rfl

end Sound

/-! ## The stops -/

/-- The stops of the array part are its indices. -/
theorem mem_arrayStops_iff {k v : Value} :
    (k, v) ∈ t.arrayStops ↔
      ∃ i, i < t.array.size ∧ k = .int (Int64.ofNat (i + 1)) ∧ v = t.array.getD i .nil := by
  simp only [arrayStops, List.mem_map, List.mem_zipIdx_iff_le_and_getElem?_sub, Prod.exists,
    Prod.mk.injEq]
  constructor
  · rintro ⟨w, n, ⟨hn, hget⟩, rfl, rfl⟩
    obtain ⟨hlt, hw⟩ := List.getElem?_eq_some_iff.mp hget
    have hlt' : n - 1 < t.array.size := by simpa using hlt
    refine ⟨n - 1, hlt', by rw [Nat.sub_add_cancel hn], ?_⟩
    rw [← hw]
    simp [Array.getD_eq_getD_getElem?, hlt']
  · rintro ⟨i, hi, rfl, rfl⟩
    refine ⟨_, i + 1, ⟨by omega, ?_⟩, rfl, rfl⟩
    simp [Array.getD_eq_getD_getElem?, hi]

/-- The key of a stop of the array part has an index. -/
theorem index?_of_mem_arrayStops (hsize : t.array.size < 2 ^ 63) {e : Value × Value}
    (he : e ∈ t.arrayStops) : ∃ i, t.index? e.1 = some i ∧ e.2 = t.array.getD i .nil := by
  obtain ⟨k, v⟩ := e
  obtain ⟨i, hi, rfl, rfl⟩ := mem_arrayStops_iff.mp he
  exact ⟨i, index?_eq_some_iff.mpr ⟨_, rfl, toInt_ofNat_succ (by omega), hi⟩, rfl⟩

/-- A key with an index is a stop of the array part. -/
theorem mem_arrayStops_of_index? (hsize : t.array.size < 2 ^ 63) {i : Nat}
    (h : t.index? key = some i) : (key, t.array.getD i .nil) ∈ t.arrayStops := by
  obtain ⟨k, rfl, hk, hi⟩ := index?_eq_some_iff.mp h
  refine mem_arrayStops_iff.mpr ⟨i, hi, ?_, rfl⟩
  rw [Int64.toInt_inj.mp (hk.trans (toInt_ofNat_succ (by omega)).symm)]

namespace Sound

/-- The stop at a slot has a stored key outside the array part. -/
theorem stop?_fits (hs : t.Sound hash m) {i : Nat} {e : Value × Value}
    (h : t.arena.stop? m.alive i = some e) :
    t.arena.key? m.alive i = some e.1 ∧ e.1.Stored ∧ t.index? e.1 = none := by
  obtain ⟨k, hk, rfl⟩ := Option.map_eq_some_iff.mp h
  refine ⟨hk, (hs.key?_fits hk).1, ?_⟩
  obtain ⟨handle, hhandle, hget⟩ := Option.bind_eq_some_iff.mp hk
  unfold index?
  split
  · rename_i n hn
    exact (hs.fits i).outside handle n hhandle ((Handle.target_of_get hget).trans hn)
  · rfl

/-- The stops of the hash part are the slots with a key. -/
theorem mem_hashStops_iff (hs : t.Sound hash m) {e : Value × Value} :
    e ∈ t.hashStops (m.context hash) ↔ ∃ i, t.arena.stop? m.alive i = some e := by
  unfold hashStops
  rw [List.mem_filterMap]
  constructor
  · rintro ⟨i, -, hi⟩
    exact ⟨i, hi⟩
  · rintro ⟨i, hi⟩
    exact ⟨i, hs.mem_linked_iff.mpr (Arena.state_ne_free_of_key? (hs.stop?_fits hi).1), hi⟩

/-- The keys of the stops are stored keys. -/
theorem stored_of_mem_stops (hs : t.Sound hash m) {e : Value × Value}
    (he : e ∈ t.stops (m.context hash)) : e.1.Stored := by
  rcases List.mem_append.mp he with harray | hhash
  · obtain ⟨k, v⟩ := e
    obtain ⟨i, -, rfl, -⟩ := mem_arrayStops_iff.mp harray
    rfl
  · obtain ⟨i, hi⟩ := hs.mem_hashStops_iff.mp hhash
    exact (hs.stop?_fits hi).2.1

/-- The keys of the stops are different. -/
theorem stops_pairwise (hs : t.Sound hash m) (hsize : t.array.size < 2 ^ 63) :
    (t.stops (m.context hash)).Pairwise fun e f ↦ e.1.content ≠ f.1.content := by
  rw [stops, List.pairwise_append]
  refine ⟨?_, ?_, ?_⟩
  · have hidx : (t.array.toList.zipIdx 1).Pairwise fun a b ↦ a.2 < b.2 := by
      rw [← List.pairwise_map, List.zipIdx_map_snd]
      exact List.pairwise_lt_range'
    have hbound : ∀ a ∈ t.array.toList.zipIdx 1, a.2 < 2 ^ 63 := by
      rintro ⟨v, n⟩ ha
      have := List.snd_lt_of_mem_zipIdx ha
      have hlength : t.array.toList.length = t.array.size := Array.length_toList
      show n < 2 ^ 63
      omega
    rw [arrayStops, List.pairwise_map]
    refine List.Pairwise.imp_of_mem ?_ hidx
    rintro ⟨v, n⟩ ⟨w, l⟩ ha hb hlt hcontent
    have heq : Int64.ofNat n = Int64.ofNat l := by simpa [Value.content] using hcontent
    have := congrArg Int64.toInt heq
    rw [Int64.toInt_ofNat_of_lt (hbound _ ha), Int64.toInt_ofNat_of_lt (hbound _ hb)] at this
    have hlt' : n < l := hlt
    omega
  · rw [hashStops, List.pairwise_filterMap]
    refine hs.linked_nodup.imp ?_
    intro i j hij e he f hf hcontent
    exact hij (hs.distinct i j _ _ (hs.stop?_fits he).1 (hs.stop?_fits hf).1 hcontent)
  · intro e he f hf hcontent
    obtain ⟨i, hi, -⟩ := index?_of_mem_arrayStops hsize he
    obtain ⟨j, hj⟩ := hs.mem_hashStops_iff.mp hf
    rw [index?_of_content_eq t hcontent, (hs.stop?_fits hj).2.2] at hi
    cases hi

/-- A stop shows the value of its key. -/
theorem get_of_mem_stops (hs : t.Sound hash m) (hhash : Value.RespectsEq hash)
    (hsize : t.array.size < 2 ^ 63) {e : Value × Value} (he : e ∈ t.stops (m.context hash))
    (hkey : key.Stored) (hcontent : e.1.content = key.content) :
    t.get (m.context hash) key = e.2 := by
  rw [get_of_stored _ _ hkey, ← index?_of_content_eq t hcontent]
  rcases List.mem_append.mp he with harray | hmem
  · obtain ⟨i, hi, hv⟩ := index?_of_mem_arrayStops hsize harray
    rw [hi, hv]
  · obtain ⟨i, hi⟩ := hs.mem_hashStops_iff.mp hmem
    obtain ⟨-, -, hindex⟩ := hs.stop?_fits hi
    obtain ⟨k, hk, rfl⟩ := Option.map_eq_some_iff.mp hi
    rw [hindex]
    show t.getFromHash (m.context hash) key = (t.arena.value? m.alive i).getD .nil
    rw [hs.getFromHash_eq hhash hkey, (hs.slot?_eq_some_iff hhash hkey).mpr ⟨k, hk, hcontent⟩]
    rfl

/-- A key with a value is a stop. -/
theorem mem_stops_of_get (hs : t.Sound hash m) (hhash : Value.RespectsEq hash)
    (hsize : t.array.size < 2 ^ 63) (hkey : key.Stored)
    (hget : t.get (m.context hash) key ≠ .nil) :
    ∃ e ∈ t.stops (m.context hash), e.1.content = key.content := by
  obtain ⟨k, hmem, hcontent⟩ := (hs.get_eq_iff hhash hsize hkey hget).mp rfl
  rcases List.mem_append.mp hmem with harray | hentry
  · obtain ⟨i, hi, rfl, -⟩ := mem_arrayEntries_iff.mp harray
    exact ⟨_, List.mem_append.mpr (.inl (mem_arrayStops_iff.mpr ⟨i, hi, rfl, rfl⟩)), hcontent⟩
  · obtain ⟨i, hi⟩ := hs.mem_hashEntries_iff.mp hentry
    obtain ⟨hk, hv⟩ := Arena.binding?_eq_some_iff.mp hi
    exact ⟨(k, _), List.mem_append.mpr (.inr (hs.mem_hashStops_iff.mpr ⟨i, by
      rw [Arena.stop?, hk, hv]
      rfl⟩)), hcontent⟩

/-- The entries are the stops that are filled. -/
theorem entries_eq_filter (hs : t.Sound hash m) :
    t.entries (m.context hash) = (t.stops (m.context hash)).filter filled := by
  rw [entries, stops, List.filter_append]
  congr 1
  · rw [arrayEntries, arrayStops, List.filter_map, ← List.filterMap_eq_filter, List.map_filterMap]
    congr 1
    funext e
    obtain ⟨v, i⟩ := e
    cases hnil : v.isNil <;> simp [Option.guard, filled, hnil]
  · rw [hashEntries, hashStops, linked, List.filter_filterMap, ← List.flatMap_id,
      List.filterMap_flatMap]
    congr 1
    funext chain
    congr 1
    funext i
    exact hs.binding?_eq_filter i

end Sound

/-! ## The entry after a key -/

/-- The table after a step of an enumeration: it remembers that an entry of the hash part was handed
out. -/
def handedOut (t : Table) : Option (Value × Value) → Table
  | some e => if t.index? e.1 = none then { t with anchored := true } else t
  | none => t

/-- A list without equal keys is split by a key in one way. -/
theorem split_unique {l a b c d : List (Value × Value)} {e f : Value × Value}
    (hpairwise : l.Pairwise fun e f ↦ e.1.content ≠ f.1.content) (h : l = a ++ e :: b)
    (h' : l = c ++ f :: d) (hcontent : e.1.content = f.1.content) : a = c ∧ e = f ∧ b = d := by
  subst h
  induction a generalizing c with
  | nil =>
    cases c with
    | nil =>
      obtain ⟨rfl, rfl⟩ := List.cons.inj h'
      exact ⟨rfl, rfl, rfl⟩
    | cons g c =>
      obtain ⟨rfl, rfl⟩ := List.cons.inj h'
      have hne := (List.pairwise_cons.mp hpairwise).1 f
        (List.mem_append.mpr (.inr List.mem_cons_self))
      exact absurd hcontent hne
  | cons g a ih =>
    cases c with
    | nil =>
      obtain ⟨rfl, rfl⟩ := List.cons.inj h'
      have hne := (List.pairwise_cons.mp hpairwise).1 e
        (List.mem_append.mpr (.inr List.mem_cons_self))
      exact absurd hcontent.symm hne
    | cons g' c =>
      obtain ⟨rfl, hrest⟩ := List.cons.inj h'
      obtain ⟨rfl, rfl, rfl⟩ := ih (List.pairwise_cons.mp hpairwise).2 hrest
      exact ⟨rfl, rfl, rfl⟩

/-- The entry after a key of the hash part is looked for behind its slot. -/
theorem nextInHash_eq (ctx : Context) (t : Table) (key : Value) :
    t.nextInHash ctx key =
      match t.slot? ctx key with
      | none => .error .badCursor
      | some i => .ok (t.scanHash ctx (t.bucketOf (ctx.hash key))
          (((t.chain (t.bucketOf (ctx.hash key))).dropWhile (· != i)).drop 1)) :=
  rfl

/-- The entry after a stored key is looked for behind its index or behind its slot. -/
theorem next_of_key? (ctx : Context) (t : Table) {k : Value} (h : key.key? = some k) :
    t.next ctx key =
      match t.index? k with
      | some i => .ok (t.scanArray ctx (i + 1))
      | none => t.nextInHash ctx k := by
  unfold next
  rw [h]
  cases k with
  | num n => cases n <;> rfl
  | _ => rfl

namespace Sound

/-- A scan of the hash part, with the table that it leaves. -/
theorem match_hash_eq (hs : t.Sound hash m) {slots : List Nat} :
    (match (slots.filterMap (t.arena.stop? m.alive)).find? filled with
      | some e => (some e, { t with anchored := true })
      | none => (none, t)) =
      ((slots.filterMap (t.arena.stop? m.alive)).find? filled,
        t.handedOut ((slots.filterMap (t.arena.stop? m.alive)).find? filled)) := by
  cases hfind : (slots.filterMap (t.arena.stop? m.alive)).find? filled with
  | none => rfl
  | some e =>
    obtain ⟨i, -, hi⟩ := List.mem_filterMap.mp (List.mem_of_find?_eq_some hfind)
    simp [handedOut, (hs.stop?_fits hi).2.2]

/-- A scan from an index of the array part finds the first stop from there on that is filled. -/
theorem scanArray (hs : t.Sound hash m) (hsize : t.array.size < 2 ^ 63) (i : Nat) :
    t.scanArray (m.context hash) i =
      ((t.arrayStops.drop i ++ t.hashStops (m.context hash)).find? filled,
        t.handedOut ((t.arrayStops.drop i ++ t.hashStops (m.context hash)).find? filled)) := by
  rw [List.find?_append]
  cases hfind : (t.arrayStops.drop i).find? filled with
  | some e =>
    obtain ⟨j, hj, -⟩ := index?_of_mem_arrayStops hsize
      (List.mem_of_mem_drop (List.mem_of_find?_eq_some hfind))
    rw [find?_drop_arrayStops] at hfind
    obtain ⟨k, hk, rfl⟩ := Option.map_eq_some_iff.mp hfind
    simp only [Option.some_or, handedOut, hj, reduceCtorEq, if_false]
    unfold Table.scanArray
    rw [hk]
  | none =>
    rw [find?_drop_arrayStops, Option.map_eq_none_iff] at hfind
    unfold Table.scanArray
    rw [hfind]
    show t.scanHash (m.context hash) 0 (t.chain 0) = _
    rw [hs.scanHash_zero]
    exact hs.match_hash_eq

/-- The first entry is the first stop that is filled. -/
theorem next_nil (hs : t.Sound hash m) (hsize : t.array.size < 2 ^ 63) :
    t.next (m.context hash) .nil =
      .ok ((t.stops (m.context hash)).find? filled,
        t.handedOut ((t.stops (m.context hash)).find? filled)) := by
  show Except.ok (t.scanArray (m.context hash) 0) = _
  rw [hs.scanArray hsize]
  rfl

/-- The linked slots, split at one of them. -/
theorem linked_split (hs : t.Sound hash m) {b i : Nat} (hi : i ∈ t.chain b) :
    ∃ before, t.linked = before ++ i ::
      (((t.chain b).dropWhile (· != i)).drop 1 ++ (t.buckets.toList.drop (b + 1)).flatten) := by
  have hb : b < t.buckets.toList.length := by simpa using lt_size_of_mem_chain hi
  obtain ⟨pre, post, hchain⟩ := List.append_of_mem hi
  have hnot : i ∉ pre := by
    have hnodup := hs.chain_nodup b
    rw [hchain] at hnodup
    intro hmem
    exact (List.disjoint_of_nodup_append hnodup) hmem List.mem_cons_self
  have hdrop : ((t.chain b).dropWhile (· != i)).drop 1 = post := by
    rw [hchain, List.dropWhile_append_of_pos fun j hj ↦ by
      simpa using fun h : j = i ↦ hnot (h ▸ hj)]
    simp
  have hbuckets : t.buckets.toList =
      t.buckets.toList.take b ++ t.chain b :: t.buckets.toList.drop (b + 1) := by
    rw [t.chain_eq_getElem hb, ← List.drop_eq_getElem_cons hb, List.take_append_drop]
  refine ⟨(t.buckets.toList.take b).flatten ++ pre, ?_⟩
  rw [hdrop, linked]
  conv_lhs => rw [hbuckets]
  rw [List.flatten_append, List.flatten_cons, hchain]
  simp only [List.append_assoc, List.cons_append]

/-- The entry after a stop is the first one behind it that is filled. -/
theorem next_eq_of_stop (hs : t.Sound hash m) (hhash : Value.RespectsEq hash)
    (hsize : t.array.size < 2 ^ 63) {pre post : List (Value × Value)} {e : Value × Value}
    {k : Value} (hsplit : t.stops (m.context hash) = pre ++ e :: post) (hkey : key.key? = some k)
    (hcontent : e.1.content = k.content) :
    t.next (m.context hash) key = .ok (post.find? filled, t.handedOut (post.find? filled)) := by
  have hpairwise := hs.stops_pairwise hsize
  have hk := Value.stored_of_key? hkey
  rw [next_of_key? _ _ hkey]
  cases hindex : t.index? k with
  | some i =>
    obtain ⟨n, rfl, hn, hi⟩ := index?_eq_some_iff.mp hindex
    have hlt : i < t.arrayStops.length := by simpa [arrayStops] using hi
    have hn' : n = Int64.ofNat (i + 1) :=
      Int64.toInt_inj.mp (hn.trans (toInt_ofNat_succ (by omega)).symm)
    have hstop : t.arrayStops[i].1.content = .int n := by
      rw [hn']
      simp [arrayStops, Value.content, Nat.add_comm]
    have hsplit' : t.stops (m.context hash) = t.arrayStops.take i ++ t.arrayStops[i] ::
        (t.arrayStops.drop (i + 1) ++ t.hashStops (m.context hash)) := by
      rw [← List.cons_append, ← List.drop_eq_getElem_cons hlt, ← List.append_assoc,
        List.take_append_drop]
      rfl
    obtain ⟨-, -, rfl⟩ := split_unique hpairwise hsplit hsplit' (hcontent.trans hstop.symm)
    show Except.ok (t.scanArray (m.context hash) (i + 1)) = _
    rw [hs.scanArray hsize]
  | none =>
    -- The stop is a slot, and the slot is the one that a look-up finds.
    have hmem : e ∈ t.stops (m.context hash) :=
      hsplit ▸ List.mem_append.mpr (.inr List.mem_cons_self)
    have hmem' : e ∈ t.hashStops (m.context hash) := by
      rcases List.mem_append.mp hmem with harray | hmem'
      · obtain ⟨i, hi, -⟩ := index?_of_mem_arrayStops hsize harray
        rw [index?_of_content_eq t hcontent, hindex] at hi
        cases hi
      · exact hmem'
    obtain ⟨i, hi⟩ := hs.mem_hashStops_iff.mp hmem'
    have hkey? := (hs.stop?_fits hi).1
    have hslot := (hs.slot?_eq_some_iff hhash hk).mpr ⟨e.1, hkey?, hcontent⟩
    have hchain := hs.mem_chain_of_content hhash hk hkey? hcontent
    obtain ⟨before, hlinked⟩ := hs.linked_split hchain
    have hsplit' : t.stops (m.context hash) =
        (t.arrayStops ++ before.filterMap (t.arena.stop? m.alive)) ++ e ::
          (((t.chain (t.bucketOf (hash k))).dropWhile (· != i)).drop 1 ++
            (t.buckets.toList.drop (t.bucketOf (hash k) + 1)).flatten).filterMap
              (t.arena.stop? m.alive) := by
      rw [stops, hashStops, Moment.context_alive, hlinked, List.filterMap_append,
        List.filterMap_cons, hi, List.append_assoc]
    obtain ⟨-, -, rfl⟩ := split_unique hpairwise hsplit hsplit' rfl
    show t.nextInHash (m.context hash) k = _
    rw [nextInHash_eq, hslot]
    show Except.ok (t.scanHash (m.context hash) (t.bucketOf (hash k)) _) = _
    rw [hs.scanHash, hs.match_hash_eq]
    rfl

/-- A key that is no stop cannot be gone on from. -/
theorem next_eq_error (hs : t.Sound hash m) (hhash : Value.RespectsEq hash)
    (hsize : t.array.size < 2 ^ 63) {k : Value} (hkey : key.key? = some k)
    (habsent : ∀ e ∈ t.stops (m.context hash), e.1.content ≠ k.content) :
    t.next (m.context hash) key = .error .badCursor := by
  rw [next_of_key? _ _ hkey]
  cases hindex : t.index? k with
  | some i =>
    have hmem := mem_arrayStops_of_index? hsize hindex
    exact absurd rfl (habsent _ (List.mem_append.mpr (.inl hmem)))
  | none =>
    show t.nextInHash (m.context hash) k = _
    have hslot : t.slot? (m.context hash) k = none := by
      rw [hs.slot?_eq_none_iff hhash (Value.stored_of_key? hkey)]
      intro i l hl
      refine habsent (l, (t.arena.value? m.alive i).getD .nil)
        (List.mem_append.mpr (.inr (hs.mem_hashStops_iff.mpr ⟨i, ?_⟩)))
      rw [Arena.stop?, hl]
      rfl
    rw [nextInHash_eq, hslot]

end Sound

end Table

end LuaData
