import LuaData.Proofs.Clearing

/-!
# Writing under a key

`Table.place` stores a value under a key at one of several places. `Sound.place_cases` lists what it
can do: `Placed` has one constructor for each change of the table, and besides that the hash part
may be full. From it follow that the table stays well formed (`Placed.sound`) and that the key gets
the value while all other keys keep theirs (`Placed.updated`). In a weak table the value is there
only if the handles of the new entry are not empty at once (`Kept`).
-/

namespace LuaData

namespace Value

/-- The content of a stored key is a stored key. -/
theorem Stored.content {key : Value} (h : key.Stored) : key.content.Stored := by
  cases key with
  | str s => rfl
  | _ => exact h

@[simp]
theorem content_content (v : Value) : v.content.content = v.content := by
  cases v <;> rfl

/-- Values of the same content are the same, or strings with the same bytes. -/
theorem eq_or_bytes_eq_of_content_eq {k l : Value} (h : k.content = l.content) :
    k = l ∨ ∃ s s', k = .str s ∧ l = .str s' ∧ s.bytes = s'.bytes := by
  cases k <;> cases l <;> simp_all [content]

/-- Only nil is nil. -/
theorem isNil_eq_false {v : Value} (h : v ≠ .nil) : v.isNil = false := by
  cases v with
  | nil => exact absurd rfl h
  | _ => rfl

@[simp]
theorem content_int (i : Int64) : (Value.int i).content = .int i := rfl

end Value

namespace Table

variable {hash : Value → UInt64} {m : Moment} {t u : Table} {key value : Value}

/-- The table with a slot taken out of a chain and its value added to the array part. -/
def moved (t : Table) (b i : Nat) (v : Value) : Table :=
  { t.dropped b i with array := t.array.push v }

/-- `u` has the values of `t`, but for one key. -/
def Updated (hash : Value → UInt64) (m : Moment) (t : Table) (key value : Value) (u : Table) :
    Prop :=
  ∀ k : Value, k.Stored → u.get (m.context hash) k =
    if k.content = key.content then value else t.get (m.context hash) k

/-- `u` has the values of `t`. -/
def SameValues (hash : Value → UInt64) (m : Moment) (t u : Table) : Prop :=
  ∀ k : Value, k.Stored → u.get (m.context hash) k = t.get (m.context hash) k

/-- What a table has under a stored key. -/
theorem get_of_stored (ctx : Context) (t : Table) (h : key.Stored) :
    t.get ctx key =
      match t.index? key with
      | some i => t.array.getD i .nil
      | none => t.getFromHash ctx key :=
  get_of_key?_some ctx t h

/-- Equal keys have the same index. -/
theorem index?_of_content_eq (t : Table) {k l : Value} (h : k.content = l.content) :
    t.index? k = t.index? l := by
  by_cases hint : ∃ n, l = .int n
  · obtain ⟨n, rfl⟩ := hint
    rw [Value.content_eq_int h]
  · have hk : ∀ n, k ≠ .int n := by
      rintro n rfl
      exact hint ⟨n, Value.content_eq_int h.symm⟩
    have hnone : ∀ v : Value, (∀ n, v ≠ .int n) → t.index? v = none := by
      intro v hv
      unfold index?
      split
      · rename_i n
        exact absurd rfl (hv n)
      · rfl
    rw [hnone k hk, hnone l fun n hn ↦ hint ⟨n, hn⟩]

/-- An index belongs to one key. -/
theorem index?_eq_some_iff {i : Nat} :
    t.index? key = some i ↔ ∃ k, key = .int k ∧ k.toInt = i + 1 ∧ i < t.array.size := by
  constructor
  · intro h
    unfold index? at h
    split at h
    · rename_i k
      exact ⟨k, rfl, (t.arrayIndex?_eq_some_iff k i).mp h⟩
    · cases h
  · rintro ⟨k, rfl, h⟩
    exact (t.arrayIndex?_eq_some_iff k i).mpr h

/-- Keys with the same index are the same. -/
theorem index?_inj {k l : Value} {i : Nat} (hk : t.index? k = some i) (hl : t.index? l = some i) :
    k = l := by
  obtain ⟨n, rfl, hn, -⟩ := index?_eq_some_iff.mp hk
  obtain ⟨n', rfl, hn', -⟩ := index?_eq_some_iff.mp hl
  rw [Int64.toInt_inj.mp (hn.trans hn'.symm)]

/-- A key without an index is not in the bounds of the array part. -/
theorem arrayIndex?_of_index? (h : t.index? key = none) :
    ∀ n, key = .int n → t.arrayIndex? n = none := by
  rintro n rfl
  exact h

/-- A change of the hash part changes the values of a key outside the array part. -/
theorem updated_of_getFromHash (harray : u.array = t.array) (hindex : t.index? key = none)
    (h : ∀ k : Value, k.Stored → u.getFromHash (m.context hash) k =
      if k.content = key.content then value else t.getFromHash (m.context hash) k) :
    Updated hash m t key value u := by
  intro k hk
  rw [get_of_stored _ _ hk, get_of_stored _ _ hk, index?_congr (congrArg Array.size harray), harray]
  cases hi : t.index? k with
  | some i =>
    have hne : k.content ≠ key.content := by
      intro hcontent
      rw [index?_of_content_eq t hcontent, hindex] at hi
      cases hi
    exact (if_neg hne).symm
  | none => exact h k hk

/-- Storing a value within the array part. -/
theorem updated_setArray {i : Nat} (hindex : t.index? key = some i) :
    Updated hash m t key value { t with array := t.array.setIfInBounds i value } := by
  intro k hk
  have hsize : (t.array.setIfInBounds i value).size = t.array.size := Array.size_setIfInBounds
  have hi : i < t.array.size := (index?_eq_some_iff.mp hindex).choose_spec.2.2
  rw [get_of_stored _ _ hk, get_of_stored _ _ hk, index?_congr (t := t) hsize]
  split
  · rename_i j hj
    simp only [Array.getD_eq_getD_getElem?, Array.getElem?_setIfInBounds]
    by_cases hij : i = j
    · subst hij
      rw [index?_inj hj hindex]
      simp [hi]
    · have hne : k.content ≠ key.content := by
        intro hcontent
        rw [index?_of_content_eq t hcontent, hindex] at hj
        exact hij (Option.some.inj hj)
      simp [hij, hne]
  · rename_i hj
    have hne : k.content ≠ key.content := by
      intro hcontent
      rw [index?_of_content_eq t hcontent, hindex] at hj
      cases hj
    rw [if_neg hne]
    rfl

/-- The index of a key in an array part with one more value. -/
theorem index?_push {k : Int64} (hk : k.toInt = t.array.size + 1) {v : Value}
    (harray : u.array = t.array.push v) (key : Value) :
    u.index? key = if key = .int k then some t.array.size else t.index? key := by
  split
  · rename_i heq
    rw [index?_eq_some_iff]
    refine ⟨k, heq, hk, ?_⟩
    simp [harray]
  · rename_i hne
    apply Option.ext
    intro i
    rw [index?_eq_some_iff, index?_eq_some_iff, harray, Array.size_push]
    refine exists_congr fun l ↦ and_congr_right fun hl ↦ and_congr_right fun hli ↦ ?_
    have : i ≠ t.array.size := by
      rintro rfl
      exact hne (hl.trans (congrArg Value.int (Int64.toInt_inj.mp (hli.trans hk.symm))))
    omega

/-- The key after the end of the array part has the value that was added there. -/
theorem updated_push {k : Int64} (hk : k.toInt = t.array.size + 1)
    (harray : u.array = t.array.push value)
    (h : ∀ l : Value, l.Stored → l ≠ .int k →
      u.getFromHash (m.context hash) l = t.getFromHash (m.context hash) l) :
    Updated hash m t (.int k) value u := by
  intro l hl
  rw [get_of_stored _ _ hl, get_of_stored _ _ hl, index?_push hk harray, harray, Value.content_int]
  by_cases heq : l = .int k
  · subst heq
    simp
  · have hne : l.content ≠ .int k := fun hcontent ↦ heq (Value.content_eq_int hcontent)
    rw [if_neg heq, if_neg hne]
    split
    · rename_i i hi
      have hlt := (index?_eq_some_iff.mp hi).choose_spec.2.2
      rw [Array.getD_eq_getD_getElem?, Array.getD_eq_getD_getElem?, Array.getElem?_push_lt hlt,
        Array.getElem?_eq_getElem hlt]
    · exact h l hl heq

/-- A natural number below the largest integer, as an integer key. -/
theorem toInt_ofNat_succ {n : Nat} (h : n + 1 < 2 ^ 63) : (Int64.ofNat (n + 1)).toInt = n + 1 := by
  rw [Int64.toInt_ofNat_of_lt h]
  rfl

/-- The key after the end of the array part has the value of the hash part. -/
theorem get_size_succ (ctx : Context) (t : Table) (hsize : t.array.size + 1 < 2 ^ 63) :
    t.get ctx (.int (Int64.ofNat (t.array.size + 1))) =
      t.getFromHash ctx (.int (Int64.ofNat (t.array.size + 1))) := by
  have hindex : t.index? (.int (Int64.ofNat (t.array.size + 1))) = none := by
    show t.arrayIndex? _ = none
    unfold arrayIndex?
    rw [toInt_ofNat_succ hsize]
    exact if_neg (by omega)
  rw [get_of_stored _ _ (Value.stored_int _), hindex]

/-- The integers after `low` and up to `high` have values, and the next one has none. -/
structure Extent (values : Value → Value) (low high : Nat) : Prop where
  le : low ≤ high
  filled : ∀ j, low < j → j ≤ high → values (.int (Int64.ofNat j)) ≠ .nil
  absent : values (.int (Int64.ofNat (high + 1))) = .nil

namespace Extent

variable {values values' : Value → Value} {low high high' : Nat}

/-- Nothing has values. -/
theorem refl (h : values (.int (Int64.ofNat (low + 1))) = .nil) : Extent values low low :=
  ⟨Nat.le_refl _, fun _ hlt hle ↦ absurd hle (Nat.not_le_of_lt hlt), h⟩

/-- One more integer has a value. -/
theorem extend (h : Extent values (low + 1) high)
    (hlow : values (.int (Int64.ofNat (low + 1))) ≠ .nil) : Extent values low high where
  le := Nat.le_of_succ_le h.le
  filled := fun j hlt hle ↦ by
    by_cases hj : j = low + 1
    · rwa [hj]
    · exact h.filled j (by omega) hle
  absent := h.absent

/-- The extent depends on the values of the integers. -/
theorem congr (h : Extent values low high) (hvalues : ∀ k, values' (.int k) = values (.int k)) :
    Extent values' low high where
  le := h.le
  filled := fun j hlt hle ↦ hvalues _ ▸ h.filled j hlt hle
  absent := (hvalues _).trans h.absent

/-- There is one end. -/
theorem unique (h : Extent values low high) (h' : Extent values low high') : high = high' := by
  have hle := h.le
  have hle' := h'.le
  rcases Nat.lt_trichotomy high high' with hlt | heq | hgt
  · exact absurd h.absent (h'.filled (high + 1) (by omega) hlt)
  · exact heq
  · exact absurd h'.absent (h.filled (high' + 1) (by omega) hgt)

end Extent

namespace Sound

/-- The integer key of a slot is always there. -/
theorem key?_int (hs : t.Sound hash m) {i : Nat} {handle : Handle} {k : Int64}
    (hkey : (t.arena.state i).key? = some handle) (htarget : handle.target = .int k) :
    t.arena.key? m.alive i = some (.int k) := by
  have hinline : (Value.int k).ref? = none := rfl
  rw [Arena.key?, hkey]
  show handle.get m.alive = _
  cases hstate : t.arena.state i with
  | live key value =>
    rw [hstate] at hkey
    cases hkey
    have := ((hs.fits i).live handle value hstate).1
    rw [this, htarget]
    exact Handle.get_ofEntry_inline hinline _
  | dead key =>
    rw [hstate] at hkey
    cases hkey
    have := (hs.fits i).dead handle hstate
    rw [this, htarget]
    exact Handle.get_ofValue_inline hinline _
  | free =>
    rw [hstate] at hkey
    cases hkey

/-- A value added to the array part keeps a table well formed if no slot holds its key. -/
theorem push (hs : t.Sound hash m) (hmode : t.mode.values = false) {k : Int64}
    (hk : k.toInt = t.array.size + 1) (hnamed : value.Named m.fresh)
    (habsent : ∀ i, t.arena.key? m.alive i ≠ some (.int k)) :
    Sound hash m { t with array := t.array.push value } := by
  refine hs.withArray (fun h ↦ absurd (h.symm.trans hmode) (by decide)) ?_ ?_
  · intro v hv
    rcases Array.mem_push.mp hv with hmem | rfl
    · exact hs.array_named v hmem
    · exact hnamed
  · intro i handle n hkey htarget ⟨hpos, hle⟩
    have houtside := (hs.fits i).outside handle n hkey htarget
    have hn : n.toInt = t.array.size + 1 := by
      by_contra hne
      rw [Array.size_push] at hle
      have : t.arrayIndex? n ≠ none := by
        unfold arrayIndex?
        rw [if_pos (by omega)]
        exact Option.some_ne_none _
      exact this houtside
    rw [Int64.toInt_inj.mp (hn.trans hk.symm)] at htarget
    exact habsent i (hs.key?_int hkey htarget)

/-- A key of the hash part after the end of the array part moves there without a change of its
value. -/
theorem moveToArray (hs : t.Sound hash m) (hhash : Value.RespectsEq hash)
    (hmode : t.mode.values = false) {k : Int64} (hk : k.toInt = t.array.size + 1) {i : Nat}
    {v : Value} (hentry : t.arena.binding? m.alive i = some (.int k, v)) :
    Sound hash m (t.moved (t.bucketOf (hash (.int k))) i v) ∧
      SameValues hash m t (t.moved (t.bucketOf (hash (.int k))) i v) := by
  obtain ⟨hkey, hvalue⟩ := Arena.binding?_eq_some_iff.mp hentry
  have hmem := hs.key_mem_chain hkey
  have hd := hs.dropped hmem
  have hfree := Arena.state_release_self t.arena i
  have hother : ∀ j, j ≠ i → (t.arena.release i).state j = t.arena.state j :=
    fun j hj ↦ Arena.state_release_of_ne _ (Ne.symm hj)
  constructor
  · refine hd.push hmode hk ?_ ?_
    · unfold Arena.value? at hvalue
      split at hvalue
      · rename_i key value hstate
        rw [← Handle.target_of_get hvalue]
        exact ((hs.fits i).live key value hstate).2.2.2
      · cases hvalue
    · intro j hj
      by_cases hji : j = i
      · subst hji
        exact Arena.state_ne_free_of_key? hj hfree
      · have hj' := (Arena.key?_congr (hother j hji)).symm.trans hj
        exact hji (hs.distinct j i _ _ hj' hkey rfl)
  · have hupdated : Updated hash m t (.int k) v (t.moved (t.bucketOf (hash (.int k))) i v) := by
      refine updated_push hk rfl fun l hl hne ↦ ?_
      have hclear := hs.getFromHash_clear hd hhash hkey
        (Arena.binding?_eq_none (by rw [show (t.dropped _ i).arena.state i = _ from hfree]; rfl))
        (fun j hj ↦ Arena.binding?_congr (hother j hj)) hl
      exact hclear.trans (if_neg fun hcontent ↦ hne (Value.content_eq_int hcontent))
    intro l hl
    rw [hupdated l hl]
    split
    · rename_i hcontent
      obtain rfl := Value.content_eq_int hcontent
      have hindex : t.index? (.int k) = none := by
        show t.arrayIndex? k = none
        unfold arrayIndex?
        exact if_neg (by omega)
      rw [get_of_stored _ _ hl, hindex]
      exact (hs.getFromHash_of_entry hhash hl hentry rfl).symm
    · rfl

/-- A key is taken out of the hash part with its slot, if it has a value. -/
theorem takeFromHash (hs : t.Sound hash m) (hhash : Value.RespectsEq hash)
    (hmode : t.mode.values = false) (k : Int64) :
    (t.takeFromHash (m.context hash) (.int k) = .ok (none, t) ∧
      t.getFromHash (m.context hash) (.int k) = .nil) ∨
      ∃ i v, t.arena.binding? m.alive i = some (.int k, v) ∧
        t.takeFromHash (m.context hash) (.int k) =
          .ok (some v, t.dropped (t.bucketOf (hash (.int k))) i) := by
  cases hfind : t.arena.find? m.alive (t.chain (t.bucketOf (hash (.int k)))) (hash (.int k))
      (·.rawEq (.int k)) with
  | none =>
    refine .inl ⟨?_, ?_⟩
    · simp [Table.takeFromHash, hfind, pure, Except.pure]
    · simp [Table.getFromHash, hfind]
  | some i =>
    refine .inr ?_
    obtain ⟨hlive, l, hl, hcontent⟩ := (hs.find?_eq_some_iff hhash (Value.stored_int k)).mp hfind
    obtain rfl := Value.content_eq_int hcontent
    have hmem := hs.key_mem_chain hl
    rw [Arena.isLive_eq] at hlive
    cases hstate : t.arena.state i with
    | live key value =>
      -- The values are strong, so the value is there.
      have hvalue : t.arena.value? m.alive i = some value.target := by
        rw [Arena.value?, hstate]
        show value.get m.alive = _
        rw [((hs.fits i).live key value hstate).2.1, hmode, Handle.target_ofEntry]
        rfl
      refine ⟨i, value.target, Arena.binding?_eq_some_iff.mpr ⟨hl, hvalue⟩, ?_⟩
      have hdrop := drop_eq hmem
      simp only [Table.takeFromHash, Moment.context_hash, Moment.context_alive, hfind, hdrop,
        hvalue, bind, Except.bind, pure, Except.pure]
      have hchain := chain_of_buckets (u := t.dropped (t.bucketOf (hash (.int k))) i)
        (lt_size_of_mem_chain hmem) rfl (t.bucketOf (hash (.int k)))
      rw [if_pos rfl] at hchain
      rw [hchain]
      rfl
    | dead key => simp [hstate, SlotState.isLive] at hlive
    | free => simp [hstate, SlotState.isLive] at hlive

/-- Moving keys over to the array part changes no value. With a count that covers the hash part, the
array part ends before the first key without a value. -/
theorem absorb (hs : t.Sound hash m) (hhash : Value.RespectsEq hash) (hmode : t.mode.values = false)
    (count : Nat) (hsize : t.array.size + count + 1 < 2 ^ 63) :
    ∃ u, t.absorb (m.context hash) count = .ok u ∧ u.Sound hash m ∧ SameValues hash m t u ∧
      Frame t u ∧ t.array.toList <+: u.array.toList ∧
      (t.arena.live ≤ count → Extent (t.get (m.context hash)) t.array.size u.array.size) := by
  induction count generalizing t with
  | zero =>
    refine ⟨t, rfl, hs, fun _ _ ↦ rfl, .refl t, List.prefix_rfl, fun hlive ↦ ?_⟩
    refine .refl ((get_size_succ _ _ hsize).trans ?_)
    exact hs.getFromHash_of_live_eq_zero (Nat.le_zero.mp hlive) _ _
  | succ count ih =>
    have hk := toInt_ofNat_succ (n := t.array.size) (by omega)
    rcases hs.takeFromHash hhash hmode (Int64.ofNat (t.array.size + 1)) with
      ⟨htake, hnil⟩ | ⟨i, v, hentry, htake⟩
    · refine ⟨t, ?_, hs, fun _ _ ↦ rfl, .refl t, List.prefix_rfl, fun _ ↦ ?_⟩
      · simp only [Table.absorb, htake, bind, Except.bind, pure, Except.pure]
      · exact .refl ((get_size_succ _ _ (by omega)).trans hnil)
    · obtain ⟨hsound, hsame⟩ := hs.moveToArray hhash hmode hk hentry
      obtain ⟨u, hu, husound, husame, hframe, hprefix, hextent⟩ := ih hsound hmode (by
        show (t.array.push v).size + count + 1 < 2 ^ 63
        rw [Array.size_push]
        omega)
      refine ⟨u, ?_, husound, fun l hl ↦ (husame l hl).trans (hsame l hl), ?_, ?_, fun hlive ↦ ?_⟩
      · simp only [Table.absorb, htake, bind, Except.bind]
        exact hu
      · refine Frame.trans ?_ hframe
        exact ⟨rfl, rfl, rfl, Array.size_setIfInBounds⟩
      · refine List.IsPrefix.trans ?_ hprefix
        show t.array.toList <+: (t.array.push v).toList
        rw [Array.toList_push]
        exact List.prefix_append _ _
      · -- The key that was moved has a value, and the rest is up to the recursion.
        have hlive' : (t.moved (t.bucketOf (hash (.int (Int64.ofNat (t.array.size + 1))))) i
            v).arena.live ≤ count := by
          show (t.arena.release i).live ≤ count
          rw [Arena.live_release (Arena.isLive_of_binding? hentry)]
          omega
        have hrest := (hextent hlive').congr fun k ↦ (hsame _ (Value.stored_int k)).symm
        rw [show (t.moved _ i v).array.size = t.array.size + 1 from Array.size_push ..] at hrest
        refine hrest.extend ?_
        rw [get_size_succ _ _ (by omega),
          hs.getFromHash_of_entry hhash (Value.stored_int _) hentry rfl]
        exact hs.value?_ne_nil (Arena.binding?_eq_some_iff.mp hentry).2

/-- No table has more entries than there are names for slots. -/
theorem live_le (hs : t.Sound hash m) : t.arena.live ≤ 2 ^ 32 := by
  rw [hs.arena.live_eq]
  exact Array.countP_le_size.trans hs.size_le_names

/-- Adding a value at the end of the array part gives it to the key after the end. The keys that
follow are moved over unless an enumeration may be on the way. -/
theorem pushBack (hs : t.Sound hash m) (hhash : Value.RespectsEq hash)
    (hmode : t.mode.values = false) (hsize : t.array.size ≤ 2 ^ 62) {k : Int64}
    (hk : k.toInt = t.array.size + 1) (hnamed : value.Named m.fresh)
    (hslot : t.slot? (m.context hash) (.int k) = none) :
    ∃ u, t.pushBack (m.context hash) value = .ok u ∧ u.Sound hash m ∧
      Updated hash m t (.int k) value u ∧ Frame t u ∧
      t.array.toList ++ [value] <+: u.array.toList ∧
      (t.anchored = true → u = { t with array := t.array.push value }) ∧
      (t.anchored = false → Extent (u.get (m.context hash)) (t.array.size + 1) u.array.size) := by
  have hpush : Sound hash m { t with array := t.array.push value } := by
    refine hs.push hmode hk hnamed fun i hi ↦ ?_
    exact (hs.slot?_eq_none_iff hhash (Value.stored_int k)).mp hslot i _ hi rfl
  have hupdated : Updated hash m t (.int k) value { t with array := t.array.push value } :=
    updated_push hk rfl fun _ _ _ ↦ rfl
  have hprefix : t.array.toList ++ [value] <+: (t.array.push value).toList :=
    Array.toList_push ▸ List.prefix_rfl
  by_cases hanchored : t.anchored = true
  · refine ⟨_, ?_, hpush, hupdated, ⟨rfl, rfl, rfl, rfl⟩, hprefix, fun _ ↦ rfl, fun h ↦ ?_⟩
    · simp [Table.pushBack, hanchored]
    · exact absurd (hanchored.symm.trans h) nofun
  · have hlive := hs.live_le
    obtain ⟨u, hu, hsound, hsame, hframe, hprefix', hextent⟩ :=
      hpush.absorb hhash hmode t.arena.live (by
        show (t.array.push value).size + t.arena.live + 1 < 2 ^ 63
        rw [Array.size_push]
        omega)
    refine ⟨u, ?_, hsound, fun l hl ↦ (hsame l hl).trans (hupdated l hl), ?_,
      hprefix.trans hprefix', fun h ↦ absurd h hanchored, fun _ ↦ ?_⟩
    · simpa [Table.pushBack, absorbTail, hanchored] using hu
    · exact ⟨hframe.metatable, hframe.mode, hframe.anchored, hframe.size⟩
    · have hrest := (hextent (Nat.le_refl _)).congr fun k ↦ hsame _ (Value.stored_int k)
      rwa [show ({ t with array := t.array.push value } : Table).array.size = t.array.size + 1 from
        Array.size_push ..] at hrest

end Sound

/-- Where a write under a stored key goes. -/
theorem destination_cases (hash : Value → UInt64) (m : Moment) (t : Table) (key value : Value) :
    (∃ i, t.index? key = some i ∧ t.destination (m.context hash) key value = .array i) ∨
    (∃ k, key = .int k ∧ k.toInt = t.array.size + 1 ∧ value ≠ .nil ∧ t.mode.values = false ∧
      t.slot? (m.context hash) key = none ∧
      t.destination (m.context hash) key value = .arrayEnd) ∨
    t.index? key = none ∧ t.destination (m.context hash) key value = .hash := by
  by_cases hint : ∃ k, key = .int k
  · obtain ⟨k, rfl⟩ := hint
    cases hindex : t.arrayIndex? k with
    | some i => exact .inl ⟨i, hindex, by simp [destination, hindex]⟩
    | none =>
      refine .inr ?_
      by_cases hend : (k.toInt = t.array.size + 1 && !value.isNil && !t.mode.values &&
          !t.hashHolds (m.context hash) (.int k)) = true
      · refine .inl ⟨k, rfl, ?_⟩
        have hdestination : t.destination (m.context hash) (.int k) value = .arrayEnd := by
          simp only [destination, hindex, hend, if_true]
        simp only [Bool.and_eq_true, Bool.not_eq_true', decide_eq_true_eq] at hend
        obtain ⟨⟨⟨hk, hvalue⟩, hmode⟩, hholds⟩ := hend
        refine ⟨hk, ?_, hmode, ?_, hdestination⟩
        · rintro rfl
          cases hvalue
        · rw [← Option.not_isSome_iff_eq_none, Bool.not_eq_true]
          exact hholds
      · exact .inr ⟨hindex, by simp only [destination, hindex, hend]; rfl⟩
  · have hne : ∀ k, key ≠ .int k := fun k hk ↦ hint ⟨k, hk⟩
    refine .inr (.inr ⟨?_, ?_⟩)
    · unfold index?
      split
      · rename_i k
        exact absurd rfl (hne k)
      · rfl
    · unfold destination
      split
      · rename_i k
        exact absurd rfl (hne k)
      · rfl

/-- The handles of an entry are not empty at once. -/
def Kept (alive : Ref → Bool) (mode : WeakMode) (e : Value × Value) : Prop :=
  (Handle.ofEntry e.1 mode.keys).get alive = some e.1 ∧
    (Handle.ofEntry e.2 mode.values).get alive = some e.2

instance (alive : Ref → Bool) (mode : WeakMode) (e : Value × Value) :
    Decidable (Kept alive mode e) :=
  inferInstanceAs (Decidable (_ ∧ _))

/-- In a table without weak handles nothing is lost. -/
theorem kept_strong (alive : Ref → Bool) (e : Value × Value) : Kept alive .strong e :=
  ⟨rfl, rfl⟩

/-- Integers are held strongly. -/
theorem kept_int (alive : Ref → Bool) {mode : WeakMode} (hmode : mode.values = false) (k : Int64)
    (v : Value) : Kept alive mode (.int k, v) := by
  refine ⟨Handle.get_ofEntry_inline rfl _, ?_⟩
  show (Handle.ofEntry v mode.values).get alive = some v
  rw [hmode]
  rfl

/-- Whether an entry is kept does not depend on the cell of a string. -/
theorem kept_congr {alive : Ref → Bool} {mode : WeakMode} {k l : Value}
    (hcontent : k.content = l.content) (v : Value) :
    Kept alive mode (k, v) ↔ Kept alive mode (l, v) := by
  have hstr : ∀ s : Str, (Handle.ofEntry (.str s) mode.keys).get alive = some (.str s) := by
    intro s
    simp [Handle.ofEntry, Value.isString, Handle.get_ofValue_false]
  rcases Value.eq_or_bytes_eq_of_content_eq hcontent with rfl | ⟨s, s', rfl, rfl, -⟩
  · rfl
  · exact and_congr_left' (by simp only [hstr])

/-- What the array part has is kept. -/
theorem Sound.kept_of_index? (hs : t.Sound hash m) {i : Nat} (h : t.index? key = some i)
    (v : Value) : Kept m.alive t.mode (key, v) := by
  obtain ⟨k, rfl, -, hlt⟩ := index?_eq_some_iff.mp h
  refine kept_int m.alive ?_ k v
  by_contra hweak
  have := hs.weak_values (by simpa using hweak)
  omega

/-- A slot with the handles of an entry has that entry while it is kept. -/
theorem binding?_of_entry {a : Arena} {i : Nat} (alive : Ref → Bool) (mode : WeakMode)
    (h : a.state i = .live (.ofEntry key mode.keys) (.ofEntry value mode.values)) :
    a.binding? alive i = if Kept alive mode (key, value) then some (key, value) else none := by
  split
  · rename_i hkept
    simp [Arena.binding?, h, show (Handle.ofEntry key mode.keys).get alive = some key from hkept.1,
      show (Handle.ofEntry value mode.values).get alive = some value from hkept.2]
  · rename_i hkept
    cases hentry : a.binding? alive i with
    | none => rfl
    | some e =>
      refine absurd ?_ hkept
      obtain ⟨hk, hv⟩ := Arena.binding?_eq_some_iff.mp hentry
      rw [Arena.key?, h] at hk
      rw [Arena.value?, h] at hv
      have hkey := (Handle.target_ofEntry key mode.keys).symm.trans (Handle.target_of_get hk)
      have hvalue := (Handle.target_ofEntry value mode.values).symm.trans (Handle.target_of_get hv)
      rw [← hkey] at hk
      rw [← hvalue] at hv
      exact ⟨hk, hv⟩

/-- What a write makes of a table when it is done. -/
inductive Placed (hash : Value → UInt64) (m : Moment) (t : Table) (key value : Value) : Table → Prop
  /-- The key is one of the array part. -/
  | inArray {i : Nat} (hindex : t.index? key = some i) :
      Placed hash m t key value { t with array := t.array.setIfInBounds i value }
  /-- The key is the one after the end of the array part, and no slot holds it. -/
  | appended {k : Int64} {u : Table} (hkey : key = .int k) (hk : k.toInt = t.array.size + 1)
      (hvalue : value ≠ .nil) (hmode : t.mode.values = false)
      (hslot : t.slot? (m.context hash) key = none)
      (hpush : t.pushBack (m.context hash) value = .ok u) : Placed hash m t key value u
  /-- There is no entry to be removed. -/
  | unchanged (hindex : t.index? key = none) (hvalue : value = .nil)
      (hslot : ∀ i, t.slot? (m.context hash) key = some i → t.arena.isLive i = false) :
      Placed hash m t key value t
  /-- The entry is removed and its slot stays. -/
  | buried {i : Nat} (hindex : t.index? key = none) (hvalue : value = .nil)
      (hslot : t.slot? (m.context hash) key = some i) (hanchored : t.anchored = true) :
      Placed hash m t key value (t.buried m.alive i)
  /-- The entry is removed with its slot. -/
  | dropped {i : Nat} (hindex : t.index? key = none) (hvalue : value = .nil)
      (hslot : t.slot? (m.context hash) key = some i) (hanchored : t.anchored = false) :
      Placed hash m t key value (t.dropped (t.bucketOf (hash key)) i)
  /-- The slot that holds the key takes the value. -/
  | assigned {i : Nat} (hindex : t.index? key = none) (hvalue : value ≠ .nil)
      (hslot : t.slot? (m.context hash) key = some i) :
      Placed hash m t key value (t.assigned i key value)
  /-- A slot is taken into use. -/
  | inserted {i : Nat} {u : Table} (hindex : t.index? key = none) (hvalue : value ≠ .nil)
      (hslot : t.slot? (m.context hash) key = none) (hroom : t.arena.used < t.buckets.size)
      (hu : t.Inserted hash key value i u) : Placed hash m t key value u

/-- A write to the hash part goes by the slot of the key. -/
theorem placeInHash_eq (ctx : Context) (t : Table) (key value : Value) :
    t.placeInHash ctx key value =
      match t.slot? ctx key with
      | some i => .stored <$> t.writeSlot ctx (t.bucketOf (ctx.hash key)) i key value
      | none =>
        if value.isNil then .ok (.stored t)
        else if t.buckets.size ≤ t.arena.used then .ok (.full t)
        else .stored <$> t.insertFresh ctx key value := by
  unfold placeInHash slot?
  split <;> rfl

namespace Sound

/-- Writing to the slot of a key is done. -/
theorem writeSlot (hs : t.Sound hash m) (hhash : Value.RespectsEq hash) (hkey : key.Stored)
    {i : Nat}
    (value : Value) (hindex : t.index? key = none) (hslot : t.slot? (m.context hash) key = some i) :
    ∃ u, t.writeSlot (m.context hash) (t.bucketOf (hash key)) i key value = .ok u ∧
      Placed hash m t key value u := by
  obtain ⟨k, hk, hcontent⟩ := (hs.slot?_eq_some_iff hhash hkey).mp hslot
  have hmem := hs.mem_chain_of_content hhash hkey hk hcontent
  unfold Table.writeSlot
  by_cases hnil : value = .nil
  · subst hnil
    by_cases hlive : t.arena.isLive i = true
    · by_cases hanchored : t.anchored = true
      · refine ⟨_, ?_, .buried hindex rfl hslot hanchored⟩
        simp [Value.isNil, hlive, hanchored, Arena.remove, bind, Except.bind, pure, Except.pure,
          setIfInBounds_chain, Table.buried]
      · have hfalse : t.anchored = false := by simpa using hanchored
        refine ⟨_, ?_, .dropped hindex rfl hslot hfalse⟩
        have hchain := chain_of_buckets (u := t.dropped (t.bucketOf (hash key)) i)
          (lt_size_of_mem_chain hmem) rfl (t.bucketOf (hash key))
        rw [if_pos rfl] at hchain
        simp only [Value.isNil, hlive, hfalse, Arena.remove, drop_eq hmem, bind, Except.bind, pure,
          Except.pure, if_true, hchain, Bool.false_eq_true, if_false]
        simp [Table.dropped, hfalse]
    · refine ⟨t, ?_, .unchanged hindex rfl fun j hj ↦ ?_⟩
      · simp [Value.isNil, hlive, pure, Except.pure]
      · rw [← Option.some.inj (hslot.symm.trans hj)]
        simpa using hlive
  · refine ⟨_, ?_, .assigned hindex hnil hslot⟩
    simp [Value.isNil_eq_false hnil, pure, Except.pure, Table.assigned]

/-- What a write under a stored key can come to. -/
theorem place_cases (hs : t.Sound hash m) (hhash : Value.RespectsEq hash) (hkey : key.Stored)
    (hnamed : value.Named m.fresh) (hsize : t.array.size ≤ 2 ^ 62) :
    (∃ u, t.place (m.context hash) key value = .ok (.stored u) ∧ Placed hash m t key value u) ∨
    (t.place (m.context hash) key value = .ok (.full t) ∧ t.index? key = none ∧ value ≠ .nil ∧
      t.slot? (m.context hash) key = none ∧ t.buckets.size ≤ t.arena.used) ∨
    t.place (m.context hash) key value = .error (.fault .noSlot) ∧ t.index? key = none ∧
      t.slot? (m.context hash) key = none ∧ 2 ^ 32 < t.buckets.size := by
  rcases destination_cases hash m t key value with
    ⟨i, hindex, hd⟩ | ⟨k, rfl, hk, hvalue, hmode, hslot, hd⟩ | ⟨hindex, hd⟩
  · refine .inl ⟨_, ?_, .inArray hindex⟩
    simp [place, hd, pure, Except.pure]
  · obtain ⟨u, hu, -⟩ := hs.pushBack hhash hmode hsize hk hnamed hslot
    refine .inl ⟨u, ?_, .appended rfl hk hvalue hmode hslot hu⟩
    simp [place, hd, hu, bind, Except.bind, pure, Except.pure]
  · have hplace : t.place (m.context hash) key value =
        t.placeInHash (m.context hash) key value := by
      simp [place, hd]
    rw [hplace, placeInHash_eq]
    cases hslot : t.slot? (m.context hash) key with
    | some i =>
      obtain ⟨u, hu, hplaced⟩ := hs.writeSlot hhash hkey value hindex hslot
      refine .inl ⟨u, ?_, hplaced⟩
      simp [hu]
    | none =>
      by_cases hnil : value = .nil
      · refine .inl ⟨t, ?_, .unchanged hindex hnil fun i hi ↦ absurd (hslot.symm.trans hi) nofun⟩
        simp [hnil, Value.isNil]
      · have hfalse := Value.isNil_eq_false hnil
        by_cases hfull : t.buckets.size ≤ t.arena.used
        · refine .inr (.inl ⟨?_, hindex, hnil, rfl, hfull⟩)
          simp [hfalse, hfull]
        · have hroom : t.arena.used < t.buckets.size := Nat.lt_of_not_le hfull
          rcases hs.insertFresh key value hroom with ⟨i, u, hu, hinserted⟩ | ⟨herror, hnames⟩
          · refine .inl ⟨u, ?_, .inserted hindex hnil hslot hroom hinserted⟩
            simp [hfalse, hfull, hu]
          · refine .inr (.inr ⟨?_, hindex, rfl, hnames.trans_lt hroom⟩)
            simp [hfalse, hfull, herror]

/-- Where no slot holds an entry of the key, the key has no value. -/
theorem updated_of_absent (hs : t.Sound hash m) (hu : u.Sound hash m)
    (hhash : Value.RespectsEq hash) (harray : u.array = t.array) (hindex : t.index? key = none)
    (hsame : ∀ i, u.arena.binding? m.alive i = t.arena.binding? m.alive i)
    (habsent : ∀ i l v, t.arena.binding? m.alive i = some (l, v) → l.content ≠ key.content) :
    Updated hash m t key .nil u := by
  refine updated_of_getFromHash harray hindex fun k hk ↦ ?_
  rw [hu.getFromHash_congr hs hhash hk (by simp only [hsame, implies_true])]
  split
  · rename_i hcontent
    exact hs.getFromHash_eq_nil hhash hk fun i l v hl hlcontent ↦
      habsent i l v hl (hlcontent.trans hcontent)
  · rfl

/-- The slot of the key loses its entry. -/
theorem updated_of_clear {i : Nat} {l : Value} (hs : t.Sound hash m) (hu : u.Sound hash m)
    (hhash : Value.RespectsEq hash) (harray : u.array = t.array) (hindex : t.index? key = none)
    (hl : t.arena.key? m.alive i = some l) (hcontent : l.content = key.content)
    (hnone : u.arena.binding? m.alive i = none)
    (hother : ∀ j, j ≠ i → u.arena.binding? m.alive j = t.arena.binding? m.alive j) :
    Updated hash m t key .nil u := by
  refine updated_of_getFromHash harray hindex fun k hk ↦ ?_
  rw [hs.getFromHash_clear hu hhash hl hnone hother hk, hcontent]

/-- A slot that held the key or none gets an entry of the key. -/
theorem updated_of_put {i : Nat} (hs : t.Sound hash m) (hu : u.Sound hash m)
    (hhash : Value.RespectsEq hash) (harray : u.array = t.array) (hindex : t.index? key = none)
    (hentry : u.arena.binding? m.alive i = some (key, value))
    (hother : ∀ j, j ≠ i → u.arena.binding? m.alive j = t.arena.binding? m.alive j)
    (hsame : ∀ l, t.arena.key? m.alive i = some l → l.content = key.content) :
    Updated hash m t key value u :=
  updated_of_getFromHash harray hindex fun _ hk ↦
    hs.getFromHash_put hu hhash hentry hother hsame hk

end Sound

namespace Placed

/-- A write keeps a table well formed. -/
theorem sound (h : Placed hash m t key value u) (hs : t.Sound hash m)
    (hhash : Value.RespectsEq hash)
    (hkey : key.Stored) (hnamed : key.Named m.fresh) (hvalueNamed : value.Named m.fresh)
    (hsize : t.array.size ≤ 2 ^ 62) : u.Sound hash m := by
  cases h with
  | inArray hindex => exact hs.setArray _ hvalueNamed
  | appended hint hk _ hmode hslot hpush =>
    subst hint
    obtain ⟨u', hu', hsound, -⟩ := hs.pushBack hhash hmode hsize hk hvalueNamed hslot
    rwa [Except.ok.inj (hpush.symm.trans hu')]
  | unchanged => exact hs
  | buried _ _ _ hanchored => exact hs.buried hanchored _
  | dropped _ _ hslot =>
    obtain ⟨k, hk, hcontent⟩ := (hs.slot?_eq_some_iff hhash hkey).mp hslot
    exact hs.dropped (hs.mem_chain_of_content hhash hkey hk hcontent)
  | assigned _ hvalue hslot =>
    obtain ⟨k, hk, hcontent⟩ := (hs.slot?_eq_some_iff hhash hkey).mp hslot
    exact hs.assigned hhash hk hcontent hkey hnamed hvalue hvalueNamed
  | inserted hindex hvalue hslot hroom hu =>
    exact hs.inserted hu hkey hnamed (arrayIndex?_of_index? hindex) hvalue hvalueNamed
      ((hs.slot?_eq_none_iff hhash hkey).mp hslot) hroom

/-- A write leaves the metatable, the weak mode, the anchor and the number of buckets. -/
theorem frame (h : Placed hash m t key value u) (hs : t.Sound hash m)
    (hhash : Value.RespectsEq hash) (hvalueNamed : value.Named m.fresh)
    (hsize : t.array.size ≤ 2 ^ 62) : Frame t u := by
  cases h with
  | inArray hindex => exact ⟨rfl, rfl, rfl, rfl⟩
  | appended hint hk _ hmode hslot hpush =>
    subst hint
    obtain ⟨u', hu', -, -, hframe, -⟩ := hs.pushBack hhash hmode hsize hk hvalueNamed hslot
    rwa [Except.ok.inj (hpush.symm.trans hu')]
  | unchanged => exact .refl t
  | buried => exact frame_buried _ _ _
  | dropped => exact frame_dropped _ _ _
  | assigned => exact ⟨rfl, rfl, rfl, rfl⟩
  | inserted _ _ _ _ hu => exact ⟨hu.metatable, hu.mode, hu.anchored, hu.size⟩

/-- A write gives the key its value if the new entry is kept, and all other keys keep theirs. -/
theorem updated_ite (h : Placed hash m t key value u) (hs : t.Sound hash m)
    (hhash : Value.RespectsEq hash) (hkey : key.Stored) (hnamed : key.Named m.fresh)
    (hvalueNamed : value.Named m.fresh) (hsize : t.array.size ≤ 2 ^ 62) :
    Updated hash m t key (if Kept m.alive t.mode (key, value) then value else .nil) u := by
  have hu := h.sound hs hhash hkey hnamed hvalueNamed hsize
  cases h with
  | inArray hindex =>
    rw [if_pos (hs.kept_of_index? hindex value)]
    exact updated_setArray hindex
  | appended hint hk _ hmode hslot hpush =>
    subst hint
    obtain ⟨u', hu', -, hupdated, -⟩ := hs.pushBack hhash hmode hsize hk hvalueNamed hslot
    rw [if_pos (kept_int m.alive hmode _ value)]
    rwa [Except.ok.inj (hpush.symm.trans hu')]
  | unchanged hindex hvalue hslot =>
    rw [hvalue, ite_self]
    refine hs.updated_of_absent hu hhash rfl hindex (fun _ ↦ rfl) fun i l v hl hcontent ↦ ?_
    have hdead := hslot i ((hs.slot?_eq_some_iff hhash hkey).mpr
      ⟨l, (Arena.binding?_eq_some_iff.mp hl).1, hcontent⟩)
    rw [Arena.isLive_eq] at hdead
    rw [Arena.binding?_eq_none hdead] at hl
    cases hl
  | @buried i hindex hvalue hslot hanchored =>
    obtain ⟨l, hl, hcontent⟩ := (hs.slot?_eq_some_iff hhash hkey).mp hslot
    rw [hvalue, ite_self]
    exact hs.updated_of_clear hu hhash rfl hindex hl hcontent (Arena.binding?_bury_self m.alive _ i)
      fun j hj ↦ Arena.binding?_congr (Arena.state_bury_of_ne m.alive t.arena (Ne.symm hj))
  | @dropped i hindex hvalue hslot hanchored =>
    obtain ⟨l, hl, hcontent⟩ := (hs.slot?_eq_some_iff hhash hkey).mp hslot
    have hfree : (t.dropped (t.bucketOf (hash key)) i).arena.state i = .free :=
      Arena.state_release_self _ _
    rw [hvalue, ite_self]
    exact hs.updated_of_clear hu hhash rfl hindex hl hcontent
      (Arena.binding?_eq_none (by rw [hfree]; rfl))
      fun j hj ↦ Arena.binding?_congr (Arena.state_release_of_ne _ (Ne.symm hj))
  | @assigned i hindex hvalue hslot =>
    obtain ⟨l, hl, hcontent⟩ := (hs.slot?_eq_some_iff hhash hkey).mp hslot
    have hbinding : (t.assigned i key value).arena.binding? m.alive i = _ :=
      binding?_of_entry m.alive t.mode
        (Arena.state_assign_self _ _ (Arena.state_ne_free_of_key? hl))
    have hother : ∀ j, j ≠ i → (t.assigned i key value).arena.binding? m.alive j =
        t.arena.binding? m.alive j :=
      fun j hj ↦ Arena.binding?_congr (Arena.state_assign_of_ne _ _ _ (Ne.symm hj))
    by_cases hkept : Kept m.alive t.mode (key, value)
    · rw [if_pos hkept] at hbinding ⊢
      refine hs.updated_of_put hu hhash rfl hindex hbinding hother fun l' hl' ↦ ?_
      rw [← Option.some.inj (hl.symm.trans hl'), hcontent]
    · rw [if_neg hkept] at hbinding ⊢
      exact hs.updated_of_clear hu hhash rfl hindex hl hcontent hbinding hother
  | @inserted i u hindex hvalue hslot hroom hinserted =>
    have hbinding := binding?_of_entry m.alive t.mode hinserted.added.state_self
    have hother : ∀ j, j ≠ i → u.arena.binding? m.alive j = t.arena.binding? m.alive j :=
      fun j hj ↦ Arena.binding?_congr (hinserted.added.state_of_ne j hj)
    by_cases hkept : Kept m.alive t.mode (key, value)
    · rw [if_pos hkept] at hbinding ⊢
      refine hs.updated_of_put hu hhash hinserted.array hindex hbinding hother fun l hl ↦ ?_
      exact absurd hinserted.added.was_free (Arena.state_ne_free_of_key? hl)
    · -- The new slot has no entry, as when it was free.
      rw [if_neg hkept] at hbinding ⊢
      refine hs.updated_of_absent hu hhash hinserted.array hindex (fun j ↦ ?_)
        fun j l v hl ↦ (hs.slot?_eq_none_iff hhash hkey).mp hslot j l
          (Arena.binding?_eq_some_iff.mp hl).1
      by_cases hj : j = i
      · rw [hj, hbinding, Arena.binding?_eq_none (by rw [hinserted.added.was_free]; rfl)]
      · exact hother j hj

/-- A write gives the key its value, and all other keys keep theirs. The handles that the entry is
stored with must not be empty at once, which holds if the key and the value are there. -/
theorem updated (h : Placed hash m t key value u) (hs : t.Sound hash m)
    (hhash : Value.RespectsEq hash) (hkey : key.Stored) (hnamed : key.Named m.fresh)
    (hvalueNamed : value.Named m.fresh) (hsize : t.array.size ≤ 2 ^ 62)
    (hkeyKept : (Handle.ofEntry key t.mode.keys).get m.alive = some key)
    (hvalueKept : (Handle.ofEntry value t.mode.values).get m.alive = some value) :
    Updated hash m t key value u := by
  have hupdated := h.updated_ite hs hhash hkey hnamed hvalueNamed hsize
  rwa [if_pos ⟨hkeyKept, hvalueKept⟩] at hupdated

end Placed

end Table

end LuaData
