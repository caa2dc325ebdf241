import LuaData.Proofs.Contents
import LuaData.Proofs.Reachable

/-!
# Enumerating a table at one moment

`Table.traverse` enumerates a table step by step. While nothing is written and nothing is released,
the steps hand out the entries of `Table.entries`, one after the other, and then find the end
(`Sound.traverse_nil`). `Reaches.enumerates_entries` says this of every table that is reached, and
which keys a step cannot go on from.
-/

namespace LuaData.Table

variable {hash : Value → UInt64} {hint : Nat} {m n : Moment} {c : Course} {t u : Table}
  {key value cursor : Value}

/-! ## The size of array parts -/

/-- Taking a value out of the hash part leaves the array part. -/
theorem array_takeFromHash {ctx : Context} {found : Option Value}
    (h : t.takeFromHash ctx key = .ok (found, u)) : u.array = t.array := by
  simp only [takeFromHash] at h
  split at h
  · cases h
    rfl
  · simp only [bind, Except.bind] at h
    split at h
    · cases h
    · cases h
      rfl

/-- Moving keys over makes the array part larger by no more than their number. -/
theorem size_le_of_absorb {ctx : Context} {count : Nat} (h : t.absorb ctx count = .ok u) :
    u.array.size ≤ t.array.size + count := by
  induction count generalizing t with
  | zero =>
    cases h
    exact Nat.le_refl _
  | succ count ih =>
    unfold absorb at h
    cases htake : t.takeFromHash ctx (.int (Int64.ofNat (t.array.size + 1))) with
    | error e =>
      rw [htake] at h
      cases h
    | ok result =>
      obtain ⟨found, w⟩ := result
      have harray := array_takeFromHash htake
      rw [htake] at h
      cases found with
      | none =>
        cases h
        rw [harray]
        exact Nat.le_add_right _ _
      | some v =>
        have hle := ih (t := { w with array := w.array.push v }) h
        simp only [Array.size_push, harray] at hle
        omega

/-- A write adds no more to the array part than its value and what the hash part has. -/
theorem Placed.size_le (h : Placed hash m t key value u) (hs : t.Sound hash m) :
    u.array.size ≤ t.array.size + (2 ^ 32 + 1) := by
  have hlive := hs.live_le
  cases h with
  | inArray => simp
  | appended _ _ _ _ _ hpush =>
    simp only [Table.pushBack] at hpush
    split at hpush
    · cases hpush
      simp
    · have hle := size_le_of_absorb hpush
      simp only [Array.size_push] at hle
      omega
  | unchanged => exact Nat.le_add_right _ _
  | buried => exact Nat.le_add_right _ _
  | dropped => exact Nat.le_add_right _ _
  | assigned => exact Nat.le_add_right _ _
  | inserted _ _ _ _ hu =>
    rw [hu.array]
    exact Nat.le_add_right _ _

/-- An attempt to write adds no more to the array part than a write does. -/
theorem Attempt.size_le {r : Except Error Bool} (h : Attempt hash m n t key value r u)
    (hmn : m ≤ n) : u.array.size ≤ t.array.size + (2 ^ 32 + 1) := by
  cases h with
  | stored hw hcleared hplaced => exact hcleared.array ▸ hplaced.size_le (hw.later hmn)
  | full _ hcleared => exact hcleared.array ▸ Nat.le_add_right _ _
  | noSlot _ hcleared => exact hcleared.array ▸ Nat.le_add_right _ _

/-- The array part after a write is small, since a rehash does not make a large one. -/
theorem Sound.size_storeKey_le (hs : t.Sound hash m) (hle : m ≤ c.clear)
    (hhash : Value.RespectsEq hash) (hkey : key.Stored) (hvalueNamed : value.Named m.fresh)
    (hsize : t.array.size ≤ 2 ^ 31) : (t.storeKey hash c key value).2.array.size ≤ 2 ^ 33 := by
  have houtcome := (hs.later hle).storeKey_cases hhash hkey
    (hvalueNamed.mono (Moment.fresh_le hle)) hsize
  generalize (t.storeKey hash c key value).1 = r at houtcome
  generalize (t.storeKey hash c key value).2 = u at houtcome ⊢
  cases houtcome with
  | stored h =>
    have := h.size_le c.clear_le
    omega
  | rehashed _ hv hu =>
    have := hu.size_le c.clearAgain_le
    have := hv.array_le
    omega
  | overflow h =>
    have := h.size_le c.clear_le
    omega
  | noSlot h =>
    have := h.size_le c.clear_le
    omega

/-- An insertion within the array part makes it longer by no more than a write does. -/
theorem Sound.size_insertion_le (hs : t.Sound hash m) {position : Int64} {removed : Value}
    (h : t.insertion (m.context hash) position value = .ok (.inArray removed u)) :
    u.array.size ≤ t.array.size + (2 ^ 32 + 1) := by
  have hlive := hs.live_le
  rw [insertion_eq _ _ _ _ rfl rfl] at h
  generalize insertPosition (t.length (m.context hash)) position = p at h
  split at h
  · cases h
  rename_i hbad
  split at h
  · cases h
  split at h
  · rename_i hlt
    cases h
    have hsize := (getD_eraseIdx_insertIdx t.array (i := p.toNat - 1) (by omega) hlt value).1
    exact hsize.le.trans (Nat.le_add_right _ _)
  split at h
  · rename_i hcond
    simp only [Bool.and_eq_true, decide_eq_true_eq] at hcond
    have hsize := (getD_insertIdx t.array (i := p.toNat - 1) (by omega) value).1
    unfold absorbTail at h
    cases habsorb : Table.absorb (m.context hash) t.arena.live
        { t with array := t.array.insertIdxIfInBounds (p.toNat - 1) value } with
    | error e =>
      rw [habsorb] at h
      cases h
    | ok w =>
      rw [habsorb] at h
      cases h
      have hle := size_le_of_absorb habsorb
      simp only [hsize] at hle
      omega
  · cases h

/-- A removal within the array part leaves its size. -/
theorem Sound.size_removal (hs : t.Sound hash m) (hsize : t.array.size ≤ 2 ^ 31) {position : Int64}
    {removed : Value} (h : t.removal (m.context hash) position = .ok (.inArray removed u)) :
    u.array.size = t.array.size :=
  (hs.removal_inArray hsize rfl h).2.2.1

/-- A property of the array parts within the limit that spreads to those that a write or an
insertion makes of one. -/
structure Spreads (hash : Value → UInt64) (P : Array Value → Prop) : Prop where
  within : ∀ array : Array Value, array.size ≤ 2 ^ 31 → P array
  write : ∀ {m : Moment} {c : Course} {t : Table} {key value : Value}, t.Sound hash m →
    m ≤ c.clear → key.Stored → value.Named m.fresh → t.array.size ≤ 2 ^ 31 →
    P (t.storeKey hash c key value).2.array
  insertion : ∀ {m : Moment} {t u : Table} {position : Int64} {value removed : Value},
    t.Sound hash m → value.Named m.fresh → t.array.size ≤ 2 ^ 31 →
    t.insertion (m.context hash) position value = .ok (.inArray removed u) → P u.array

namespace Spreads

variable {P : Array Value → Prop} {made : List (Nat × Nat)} {position : Int64}

/-- It spreads to what a write under any key makes. -/
theorem store (hP : Spreads hash P) (hs : t.Sound hash m) (hle : m ≤ c.clear)
    (hvalueNamed : value.Named m.fresh) (hsize : t.array.size ≤ 2 ^ 31) :
    P (t.store hash c key value).2.array := by
  unfold Table.store storedKey
  cases hkey : key.key? with
  | none => exact hP.within _ hsize
  | some k => exact hP.write hs hle (Value.stored_of_key? hkey) hvalueNamed hsize

/-- It spreads to what a write under an integer makes. -/
theorem storeInt (hP : Spreads hash P) (hs : t.Sound hash m) (hle : m ≤ c.clear)
    (hvalueNamed : value.Named m.fresh) (hsize : t.array.size ≤ 2 ^ 31) {k : Int64}
    {r : Except Error Unit} (hstore : t.storeKey hash c (.int k) value = (r, u)) : P u.array := by
  have hwrite := hP.write hs hle (Value.stored_int k) hvalueNamed hsize
  rwa [hstore] at hwrite

/-- It spreads to what the copy of a value makes. -/
theorem copy (hP : Spreads hash P) (hhash : Value.RespectsEq hash) (hs : t.Sound hash m)
    (hle : m ≤ c.clear) (hsize : t.array.size ≤ 2 ^ 31) {job : Nat × Nat} {r : Except Error Unit}
    (hcopy : t.copy hash m c job = (r, u)) : P u.array :=
  hP.storeInt hs hle (hs.get_named hhash (.int (Int64.ofNat job.1))) hsize hcopy

/-- It spreads to what an insertion makes. -/
theorem inserts (hP : Spreads hash P) (hhash : Value.RespectsEq hash) (hs : t.Sound hash m)
    (hvalueNamed : value.Named m.fresh) (hsize : t.array.size ≤ 2 ^ 31) {r : Except Error Unit}
    (h : Inserts hash m t position value made r n u) : P u.array := by
  cases h with
  | refused => exact hP.within _ hsize
  | inArray hinArray => exact hP.insertion hs hvalueNamed hsize hinArray
  | byKey _ hcopies hle hsize' hstore =>
    obtain ⟨hmn, hevolved⟩ := hcopies.evolved hs hhash
    have hvalueNamed' := hvalueNamed.mono (Moment.fresh_le hmn)
    exact hP.storeInt hevolved.sound hle hvalueNamed' hsize' hstore
  | stopped _ _ hcopies hle hsize' hcopy =>
    exact hP.copy hhash (hcopies.evolved hs hhash).2.sound hle hsize' hcopy

/-- It spreads to what a removal makes. -/
theorem removes (hP : Spreads hash P) (hhash : Value.RespectsEq hash) (hs : t.Sound hash m)
    (hsize : t.array.size ≤ 2 ^ 31) {r : Except Error Value}
    (h : Removes hash m t position made r n u) : P u.array := by
  cases h with
  | refused => exact hP.within _ hsize
  | inArray hinArray => exact hP.within _ ((hs.size_removal hsize hinArray).trans_le hsize)
  | byKey _ hcopies hle hsize' hstore =>
    have hnil : ∀ fresh, Value.nil.Named fresh := Value.named_of_inline rfl
    exact hP.storeInt (hcopies.evolved hs hhash).2.sound hle (hnil _) hsize' hstore
  | stopped _ _ hcopies hle hsize' hcopy =>
    exact hP.copy hhash (hcopies.evolved hs hhash).2.sound hle hsize' hcopy

/-- It spreads to what a change of the weak mode makes. -/
theorem setMode (hP : Spreads hash P) (hhash : Value.RespectsEq hash) (hs : t.Sound hash m)
    (hsize : t.array.size ≤ 2 ^ 31) {mode : WeakMode}
    (hset : t.setMode (m.context hash) mode = .ok u) : P u.array := by
  rcases hs.setMode_cases hhash hsize mode with ⟨-, hok⟩ | ⟨herror, -⟩ | ⟨w, hok, -, hrebuilt⟩
  · rw [hset] at hok
    cases hok
    exact hP.within _ hsize
  · rw [hset] at herror
    cases herror
  · rw [hset] at hok
    cases hok
    exact hP.within _ hrebuilt.array_le

/-- It spreads to all array parts that are reached. -/
theorem reaches (hP : Spreads hash P) (hhash : Value.RespectsEq hash)
    (h : Reaches hash hint m t) : P t.array := by
  induction h with
  | new m => exact hP.within _ (Nat.zero_le _)
  | wait _ _ ih => exact ih
  | store h hsize hle _ hvalueNamed =>
    exact hP.store (Reaches.sound h hhash).1 hle hvalueNamed (hsize rfl)
  | insert h hsize hvalueNamed hinsert =>
    exact hP.inserts hhash (Reaches.sound h hhash).1 hvalueNamed (hsize rfl) hinsert
  | remove h hsize hremove =>
    exact hP.removes hhash (Reaches.sound h hhash).1 (hsize rfl) hremove
  | next _ hnext ih =>
    rcases next_table hnext with rfl | rfl
    · exact ih
    · exact ih
  | @setMetatable _ _ _ _ metatable _ h hsize hle hset =>
    have hs := ((Reaches.sound h hhash).1.later hle).withMetatable metatable
    exact hP.setMode hhash hs (hsize rfl) hset
  | refused _ hregular => cases hregular

end Spreads

/-- A bound that spreads. -/
theorem spreads_size_le (hhash : Value.RespectsEq hash) :
    Spreads hash fun array ↦ array.size ≤ 2 ^ 33 where
  within _ hsize := hsize.trans (by decide)
  write hs hle hkey hnamed hsize := hs.size_storeKey_le hle hhash hkey hnamed hsize
  insertion hs _ hsize hinArray := by
    have hgrowth := hs.size_insertion_le hinArray
    omega

/-- Every array part is small. -/
theorem Reaches.size_le (h : Reaches hash hint m t) (hhash : Value.RespectsEq hash) :
    t.array.size ≤ 2 ^ 33 :=
  (spreads_size_le hhash).reaches hhash h

/-- Every index of an array part is a key. -/
theorem Reaches.size_lt (h : Reaches hash hint m t) (hhash : Value.RespectsEq hash) :
    t.array.size < 2 ^ 63 :=
  (h.size_le hhash).trans_lt (by decide)

/-! ## Step after step -/

/-- What enumeration steps give: the entries in the order they are handed out, whether the end is
found, and the table that is left. -/
structure Traversal where
  entries : List (Value × Value)
  ended : Bool
  table : Table

/-- Enumerate a table behind a key. Each step goes on from the key that the last one handed out, and
`limit` is the largest number of steps. -/
def traverse (ctx : Context) : (limit : Nat) → Table → (cursor : Value) → Except Error Traversal
  | 0, t, _ => .ok ⟨[], false, t⟩
  | limit + 1, t, cursor => do
    match ← t.next ctx cursor with
    | (none, t) => return ⟨[], true, t⟩
    | (some e, t) =>
      let rest ← traverse ctx limit t e.1
      return { rest with entries := e :: rest.entries }

/-- Handing out an entry at most remembers that. -/
theorem handedOut_eq (t : Table) (e : Option (Value × Value)) :
    t.handedOut e = t ∨ t.handedOut e = { t with anchored := true } := by
  unfold handedOut
  split
  · split
    · exact .inr rfl
    · exact .inl rfl
  · exact .inl rfl

namespace Sound

/-- Handing out an entry keeps a table well formed. -/
theorem handedOut (hs : t.Sound hash m) (e : Option (Value × Value)) :
    (t.handedOut e).Sound hash m := by
  rcases handedOut_eq t e with h | h
  · rwa [h]
  · rw [h]
    exact hs.anchor

/-- The steps from a key on hand out the stops behind it that are filled, one after the other, and
then find the end. -/
theorem traverse (hs : t.Sound hash m) (hhash : Value.RespectsEq hash)
    (hsize : t.array.size < 2 ^ 63) (pre behind : List (Value × Value))
    (hstops : t.stops (m.context hash) = pre ++ behind)
    (hnext : t.next (m.context hash) cursor =
      .ok (behind.find? filled, t.handedOut (behind.find? filled))) (limit : Nat) :
    ∃ u, t.traverse (m.context hash) limit cursor =
      .ok ⟨(behind.filter filled).take limit, (behind.filter filled).length < limit, u⟩ ∧
      (u = t ∨ u = { t with anchored := true }) := by
  induction limit generalizing t cursor pre behind with
  | zero => exact ⟨t, rfl, .inl rfl⟩
  | succ limit ih =>
    simp only [Table.traverse, hnext, bind, Except.bind, pure, Except.pure]
    cases hfind : behind.find? filled with
    | none =>
      have hnone : behind.filter filled = [] := by
        rw [List.filter_eq_nil_iff]
        exact List.find?_eq_none.mp hfind
      rw [hnone]
      exact ⟨t, rfl, .inl rfl⟩
    | some e =>
      obtain ⟨he, skipped, post, rfl, hskipped⟩ := List.find?_eq_some_iff_append.mp hfind
      -- The step leaves the stops, and the next one goes on behind the entry it handed out.
      have hu := hs.handedOut (some e)
      have hsplit : (t.handedOut (some e)).stops (m.context hash) =
          (pre ++ skipped) ++ e :: post := by
        rw [List.append_assoc, ← hstops]
        rcases handedOut_eq t (some e) with h | h
        · rw [h]
        · rw [h]
          rfl
      have hmem : e ∈ (t.handedOut (some e)).stops (m.context hash) :=
        hsplit ▸ List.mem_append.mpr (.inr List.mem_cons_self)
      have husize : (t.handedOut (some e)).array.size < 2 ^ 63 := by
        rcases handedOut_eq t (some e) with h | h
        · rwa [h]
        · rwa [h]
      have hstep := hu.next_eq_of_stop hhash husize hsplit (hu.stored_of_mem_stops hmem) rfl
      obtain ⟨w, hw, hwu⟩ := ih hu husize (pre ++ skipped ++ [e]) post (by simp [hsplit]) hstep
      have hfilter : (skipped ++ e :: post).filter filled = e :: post.filter filled := by
        have hnone : skipped.filter filled = [] := by
          rw [List.filter_eq_nil_iff]
          intro a ha
          simpa using hskipped a ha
        rw [List.filter_append, hnone, List.filter_cons_of_pos he, List.nil_append]
      refine ⟨w, ?_, ?_⟩
      · simp only [hw, hfilter, List.take_succ_cons, List.length_cons, Nat.succ_lt_succ_iff]
      · rcases handedOut_eq t (some e) with h | h
        · rwa [h] at hwu
        · rw [h] at hwu
          exact .inr (hwu.elim id id)

/-- An enumeration from the start hands out all entries and then finds the end. -/
theorem traverse_nil (hs : t.Sound hash m) (hhash : Value.RespectsEq hash)
    (hsize : t.array.size < 2 ^ 63) (limit : Nat) :
    ∃ u, t.traverse (m.context hash) limit .nil =
      .ok ⟨(t.entries (m.context hash)).take limit, t.keyCount (m.context hash) < limit, u⟩ ∧
      (u = t ∨ u = { t with anchored := true }) := by
  rw [keyCount, hs.entries_eq_filter]
  exact hs.traverse hhash hsize [] _ rfl (hs.next_nil hsize) limit

end Sound

/-! ## Keys that cannot be gone on from -/

/-- The key is NaN, or it is neither within the bounds of the array part nor held by a slot of a
chain, live or dead. -/
def Lost (alive : Ref → Bool) (t : Table) (cursor : Value) : Prop :=
  (∃ x : Double, cursor = .float x ∧ x.isNaN = true) ∨
  ∃ k, cursor.key? = some k ∧ (∀ n, k = .int n → ¬ (1 ≤ n.toInt ∧ n.toInt ≤ t.array.size)) ∧
    ∀ b, ∀ i ∈ t.chain b, ∀ l, t.arena.key? alive i = some l → l.rawEq k = false

/-- A step fails in one way only. -/
theorem eq_badCursor_of_next {ctx : Context} {e : Error} (h : t.next ctx cursor = .error e) :
    e = .badCursor := by
  rcases next_cases ctx t cursor with herror | ⟨_, _, hok, -⟩
  · rw [h] at herror
    cases herror
    rfl
  · rw [h] at hok
    cases hok

namespace Sound

/-- A stored key is lost if it is no stop. -/
theorem lost_iff_of_key? (hs : t.Sound hash m) (hsize : t.array.size < 2 ^ 63) {k : Value}
    (hk : cursor.key? = some k) :
    t.Lost m.alive cursor ↔ ∀ e ∈ t.stops (m.context hash), e.1.content ≠ k.content := by
  have hstored := Value.stored_of_key? hk
  have hnan : ¬ ∃ x : Double, cursor = .float x ∧ x.isNaN = true := by
    intro hnan
    have hnone := (Value.key?_eq_none_iff cursor).mpr (.inr hnan)
    rw [hk] at hnone
    cases hnone
  have hrawEq : ∀ {l : Value}, l.Stored → (l.rawEq k = false ↔ l.content ≠ k.content) := by
    intro l hl
    rw [← Bool.not_eq_true, Value.rawEq_iff_content_eq hl hstored]
  constructor
  · intro hlost e he hcontent
    obtain ⟨k', hk', hbounds, hslots⟩ := hlost.resolve_left hnan
    obtain rfl := Option.some.inj (hk.symm.trans hk')
    rcases List.mem_append.mp he with harray | hhash
    · obtain ⟨i, hi, -⟩ := index?_of_mem_arrayStops hsize harray
      rw [index?_of_content_eq t hcontent] at hi
      obtain ⟨n, rfl, hn, hlt⟩ := index?_eq_some_iff.mp hi
      exact hbounds n rfl (by omega)
    · obtain ⟨i, hi⟩ := hs.mem_hashStops_iff.mp hhash
      obtain ⟨hkey, hl, -⟩ := hs.stop?_fits hi
      exact (hrawEq hl).mp (hslots _ i (hs.key_mem_chain hkey) e.1 hkey) hcontent
  · intro habsent
    refine .inr ⟨k, hk, ?_, ?_⟩
    · rintro n rfl ⟨hpos, hle⟩
      have hindex : t.index? (.int n) = some (n.toInt - 1).toNat :=
        index?_eq_some_iff.mpr ⟨n, rfl, by omega, by omega⟩
      exact habsent _ (List.mem_append.mpr (.inl (mem_arrayStops_of_index? hsize hindex))) rfl
    · intro b i _ l hl
      rw [hrawEq (hs.key?_fits hl).1]
      refine habsent (l, (t.arena.value? m.alive i).getD .nil)
        (List.mem_append.mpr (.inr (hs.mem_hashStops_iff.mpr ⟨i, ?_⟩)))
      rw [Arena.stop?, hl]
      rfl

/-- A step fails exactly on a key that is lost. -/
theorem next_eq_error_iff (hs : t.Sound hash m) (hhash : Value.RespectsEq hash)
    (hsize : t.array.size < 2 ^ 63) (hcursor : cursor ≠ .nil) (e : Error) :
    t.next (m.context hash) cursor = .error e ↔ e = .badCursor ∧ t.Lost m.alive cursor := by
  have hkind : t.next (m.context hash) cursor = .error e → e = .badCursor := eq_badCursor_of_next
  suffices hiff : t.next (m.context hash) cursor = .error .badCursor ↔ t.Lost m.alive cursor by
    refine ⟨fun h ↦ ⟨hkind h, ?_⟩, fun ⟨he, hlost⟩ ↦ ?_⟩
    · rw [hkind h] at h
      exact hiff.mp h
    · rw [he]
      exact hiff.mpr hlost
  cases hkey : cursor.key? with
  | none =>
    have hnan := ((Value.key?_eq_none_iff cursor).mp hkey).resolve_left hcursor
    refine ⟨fun _ ↦ .inl hnan, fun _ ↦ ?_⟩
    simp only [Table.next, hkey, Value.isNil_eq_false hcursor]
    rfl
  | some k =>
    rw [hs.lost_iff_of_key? hsize hkey]
    constructor
    · intro herror f hf hcontent
      obtain ⟨pre, post, hsplit⟩ := List.append_of_mem hf
      rw [hs.next_eq_of_stop hhash hsize hsplit hkey hcontent] at herror
      cases herror
    · exact hs.next_eq_error hhash hsize hkey

end Sound

/-! ## Tables that are reached -/

/-- What an enumeration of a table gives while nothing is written or released. -/
structure Enumerates (hash : Value → UInt64) (m : Moment) (t : Table) : Prop where
  /-- The steps from the start hand out the entries in their order, and the first one that hands out
  nothing comes after all of them. -/
  complete : ∀ limit, ∃ u, t.traverse (m.context hash) limit .nil =
    .ok ⟨(t.entries (m.context hash)).take limit, t.keyCount (m.context hash) < limit, u⟩
  /-- The entries are what look-ups find. -/
  visible : ∀ key v : Value, v ≠ .nil → (t.get (m.context hash) key = v ↔
    ∃ k, (k, v) ∈ t.entries (m.context hash) ∧ k.normal? = key.normal?)
  once : (t.entries (m.context hash)).Pairwise fun e f ↦ e.1.normal? ≠ f.1.normal?
  /-- First come the indices of the array part in ascending order, then the slots by bucket and
  chain. -/
  order : t.entries (m.context hash) =
    ((List.range t.array.size).filterMap fun i ↦
      if t.array.getD i .nil = .nil then none
      else some (.int (Int64.ofNat (i + 1)), t.array.getD i .nil)) ++
    (List.range t.buckets.size).flatMap fun b ↦ (t.chain b).filterMap (t.arena.binding? m.alive)
  next_error_iff : ∀ cursor, cursor ≠ .nil → ∀ e,
    t.next (m.context hash) cursor = .error e ↔ e = .badCursor ∧ t.Lost m.alive cursor
  index_error : ∀ cursor e, t.next (m.context hash) cursor = .error e → e.kind = .index

namespace Sound

/-- A key in any form has a value if there is an entry for its normal form. -/
theorem get_eq_iff_normal? (hs : t.Sound hash m) (hhash : Value.RespectsEq hash)
    (hsize : t.array.size < 2 ^ 63) (key : Value) {v : Value} (hv : v ≠ .nil) :
    t.get (m.context hash) key = v ↔
      ∃ k, (k, v) ∈ t.entries (m.context hash) ∧ k.normal? = key.normal? := by
  have hentry : ∀ {k : Value}, (k, v) ∈ t.entries (m.context hash) →
      k.normal? = some k.content :=
    fun hk ↦ Value.normal?_of_stored (hs.insertable hk).stored
  cases hkey : key.key? with
  | none =>
    rw [get_of_key?_none _ _ hkey]
    refine ⟨fun h ↦ absurd h.symm hv, fun ⟨k, hk, hnormal⟩ ↦ ?_⟩
    rw [hentry hk, Value.normal?, hkey] at hnormal
    cases hnormal
  | some l =>
    rw [get_of_key? _ _ hkey, hs.get_eq_iff hhash hsize (Value.stored_of_key? hkey) hv,
      Value.normal?_of_key? hkey]
    refine exists_congr fun k ↦ and_congr_right fun hk ↦ ?_
    rw [hentry hk, Option.some.injEq]

/-- No two entries have the same key. -/
theorem entries_pairwise_normal? (hs : t.Sound hash m) (hsize : t.array.size < 2 ^ 63) :
    (t.entries (m.context hash)).Pairwise fun e f ↦ e.1.normal? ≠ f.1.normal? := by
  refine (hs.entries_pairwise hsize).imp_of_mem fun {e f} he hf hne ↦ ?_
  rw [Value.normal?_of_stored (hs.insertable he).stored,
    Value.normal?_of_stored (hs.insertable hf).stored, ne_eq, Option.some.injEq]
  exact hne

end Sound

/-- The entries of the array part by index. -/
theorem arrayEntries_eq_range (t : Table) :
    t.arrayEntries = (List.range t.array.size).filterMap fun i ↦
      if t.array.getD i .nil = .nil then none
      else some (.int (Int64.ofNat (i + 1)), t.array.getD i .nil) := by
  have hzip : t.array.toList.zipIdx 1 =
      (List.range t.array.size).map fun i ↦ (t.array.getD i .nil, i + 1) := by
    refine List.ext_getElem (by simp) fun i hi _ ↦ ?_
    have hlt : i < t.array.size := by simpa using hi
    simp [Array.getD_eq_getD_getElem?, hlt, Nat.add_comm]
  rw [arrayEntries, hzip, List.filterMap_map]
  refine List.filterMap_congr fun i _ ↦ ?_
  show (if (t.array.getD i .nil).isNil = true then none else _) = _
  cases t.array.getD i .nil <;> rfl

/-- The entries of the hash part by bucket. -/
theorem hashEntries_eq_range (ctx : Context) (t : Table) :
    t.hashEntries ctx =
      (List.range t.buckets.size).flatMap fun b ↦
        (t.chain b).filterMap (t.arena.binding? ctx.alive) := by
  have hbuckets : t.buckets.toList = (List.range t.buckets.size).map t.chain := by
    refine List.ext_getElem (by simp) fun b hb _ ↦ ?_
    rw [← t.chain_eq_getElem hb, List.getElem_map, List.getElem_range]
  rw [hashEntries, hbuckets, List.flatMap_map]

/-- Every table that is reached is enumerated from its first entry to its last, and an enumeration
goes on from every key but those that are lost. -/
theorem Reaches.enumerates_entries (hhash : Value.RespectsEq hash) (h : Reaches hash hint m t) :
    t.Enumerates hash m := by
  have hs := (h.sound hhash).1
  have hsize : t.array.size < 2 ^ 63 := h.size_lt hhash
  refine ⟨fun limit ↦ ?_, fun key v hv ↦ hs.get_eq_iff_normal? hhash hsize key hv,
    hs.entries_pairwise_normal? hsize, ?_, fun cursor ↦ hs.next_eq_error_iff hhash hsize, ?_⟩
  · obtain ⟨u, hu, -⟩ := hs.traverse_nil hhash hsize limit
    exact ⟨u, hu⟩
  · rw [entries, arrayEntries_eq_range, hashEntries_eq_range]
    rfl
  · intro cursor e he
    rw [eq_badCursor_of_next he]
    rfl

/-- A table with a hole in its array part and a dead slot: the enumeration passes over both, the
removed key can be gone on from, and an absent one cannot. -/
theorem enumerates_entries_of_removal :
    ∃ t, Reaches Value.hash 4 .origin t ∧ t.tombstones = 1 ∧
      (∃ u, t.traverse (Moment.origin.context Value.hash) 3 .nil =
        .ok ⟨[(.int 2, .bool true), (.bool true, .int 5)], true, u⟩) ∧
      t.next (Moment.origin.context Value.hash) (.int 7) ≠ .error .badCursor ∧
      t.next (Moment.origin.context Value.hash) (.int 9) = .error .badCursor := by
  let write (t : Table) (key value : Value) : Table :=
    (t.store Value.hash (.still .origin) key value).2
  let first := write (withHashSize 4) (.int 7) (.bool true)
  have hfirst : Reaches Value.hash 4 .origin first :=
    (Reaches.new .origin).storeInline (by decide) rfl rfl
  have hnext : first.next (Moment.origin.context Value.hash) .nil =
      .ok (some (.int 7, .bool true), { first with anchored := true }) := by
    rw [(hfirst.sound Value.rawEq_hash).1.next_nil (by decide +kernel)]
    rfl
  -- The enumeration is at the key seven when that is removed.
  let t := write (write (write (write (write { first with anchored := true } (.bool true) (.int 5))
    (.int 1) (.bool true)) (.int 2) (.bool true)) (.int 7) .nil) (.int 1) .nil
  have ht : Reaches Value.hash 4 .origin t := by
    refine (((((hfirst.next hnext).storeInline ?_ rfl rfl).storeInline ?_ rfl rfl).storeInline ?_
      rfl rfl).storeInline ?_ rfl rfl).storeInline ?_ rfl rfl
    all_goals decide +kernel
  have henumerates := ht.enumerates_entries Value.rawEq_hash
  have hlost {cursor k : Value} (hk : cursor.key? = some k) :=
    (ht.sound Value.rawEq_hash).1.lost_iff_of_key? (by decide +kernel) hk
  refine ⟨t, ht, by decide +kernel, ?_, ?_, ?_⟩
  · obtain ⟨u, hu⟩ := henumerates.complete 3
    refine ⟨u, hu.trans ?_⟩
    have hentries : t.entries (Moment.origin.context Value.hash) =
        [(.int 2, .bool true), (.bool true, .int 5)] := by decide +kernel
    rw [keyCount, hentries]
    rfl
  · rw [ne_eq, henumerates.next_error_iff (.int 7) (by decide), and_iff_right rfl, hlost rfl]
    decide +kernel
  · rw [henumerates.next_error_iff (.int 9) (by decide), and_iff_right rfl, hlost rfl]
    decide +kernel

end LuaData.Table
