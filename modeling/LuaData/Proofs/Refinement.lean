import LuaData.Proofs.Contents
import LuaData.Proofs.Reachable

/-!
# Tables are finite maps

A table that is not weak answers like a finite map. `History` runs a table and its map side by side,
through writes, insertions, removals, enumeration steps and changes of the metatable, whatever is
released in the meantime. `History.refines_contents` says that the table has under each key the
value of the map, that a write changes the value of its key and of no other, and when a write fails.
-/

namespace LuaData.Table

variable {hash : Value → UInt64} {hint : Nat} {m n : Moment} {c : Course} {t u : Table}
  {key value : Value} {M : Contents}

/-- The table is not weak and has the values of a map. -/
structure Represents (hash : Value → UInt64) (t : Table) (M : Contents) : Prop where
  mode : t.mode = .strong
  values : ∀ key, t.valueOf hash key = M.get key

namespace Represents

/-- It is enough to compare the values of stored keys. -/
theorem of_stored (hmode : t.mode = .strong)
    (h : ∀ k : Value, k.Stored → t.valueOf hash k = M.read k.content) : Represents hash t M := by
  refine ⟨hmode, fun key ↦ ?_⟩
  unfold Contents.get
  cases hkey : key.key? with
  | none =>
    rw [Value.normal?, hkey]
    exact get_of_key?_none _ _ hkey
  | some k =>
    rw [Value.normal?_of_key? hkey, valueOf, get_of_key? _ _ hkey]
    exact h k (Value.stored_of_key? hkey)

/-- The value of a stored key. -/
theorem valueOf_stored (h : Represents hash t M) (hkey : key.Stored) :
    t.valueOf hash key = M.read key.content := by
  rw [h.values, Contents.get, Value.normal?_of_stored hkey]

/-- What is alive makes no difference. -/
theorem get_eq (h : Represents hash t M) (hs : t.Sound hash m) (alive : Ref → Bool) (key : Value) :
    t.get ⟨hash, alive⟩ key = M.get key :=
  (hs.get_eq_valueOf h.mode alive key).trans (h.values key)

/-- A table whose values are the same represents the same map. -/
theorem congr (h : Represents hash t M) (hmode : u.mode = t.mode)
    (hvalues : ∀ k, u.valueOf hash k = t.valueOf hash k) : Represents hash u M :=
  ⟨hmode.trans h.mode, fun k ↦ (hvalues k).trans (h.values k)⟩

/-- A write under a stored key is a write to the map. -/
theorem storeKey (h : Represents hash t M) (hs : t.Sound hash m) (hle : m ≤ c.clear)
    (hhash : Value.RespectsEq hash) (hkey : key.Stored) (hnamed : key.Named m.fresh)
    (hvalueNamed : value.Named m.fresh) (hsize : t.array.size ≤ 2 ^ 31)
    (hstore : t.storeKey hash c key value = (.ok (), u)) : Represents hash u (M.set key value) := by
  have hnamed' := hnamed.mono (Moment.fresh_le hle)
  have hvalueNamed' := hvalueNamed.mono (Moment.fresh_le hle)
  have houtcome := (hs.later hle).storeKey_cases hhash hkey hvalueNamed' hsize
  rw [hstore] at houtcome
  have hmode := (houtcome.frame hhash hvalueNamed' hsize).2.1
  refine .of_stored (hmode.trans h.mode) fun k hk ↦ ?_
  rw [houtcome.valueOf_eq (hs.later hle) h.mode hhash hkey hnamed' hvalueNamed' hsize hk,
    h.valueOf_stored hk]
  refine if_congr ?_ rfl rfl
  rw [Value.normal?_of_stored hkey, Option.some.injEq, eq_comm]

/-- A write under a stored key that fails leaves the map. -/
theorem storeKey_error (h : Represents hash t M) (hs : t.Sound hash m) (hle : m ≤ c.clear)
    (hhash : Value.RespectsEq hash) (hkey : key.Stored) (hvalueNamed : value.Named m.fresh)
    (hsize : t.array.size ≤ 2 ^ 31) {e : Error}
    (hstore : t.storeKey hash c key value = (.error e, u)) : Represents hash u M := by
  have hvalueNamed' := hvalueNamed.mono (Moment.fresh_le hle)
  have houtcome := (hs.later hle).storeKey_cases hhash hkey hvalueNamed' hsize
  rw [hstore] at houtcome
  exact h.congr (houtcome.frame hhash hvalueNamed' hsize).2.1
    (houtcome.valueOf_eq_of_error (hs.later hle) h.mode hhash)

/-- A write is a write to the map. -/
theorem store (h : Represents hash t M) (hs : t.Sound hash m) (hle : m ≤ c.clear)
    (hhash : Value.RespectsEq hash) (hnamed : key.Named m.fresh) (hvalueNamed : value.Named m.fresh)
    (hsize : t.array.size ≤ 2 ^ 31) (hstore : t.store hash c key value = (.ok (), u)) :
    Represents hash u (M.set key value) := by
  unfold Table.store storedKey at hstore
  cases hkey : key.key? with
  | none =>
    rw [hkey] at hstore
    cases hstore
  | some k =>
    rw [hkey] at hstore
    have hk := Value.stored_of_key? hkey
    have hset : M.set key value = M.set k value := by
      unfold Contents.set
      simp only [Value.normal?_of_key? hkey, Value.normal?_of_stored hk]
    rw [hset]
    exact h.storeKey hs hle hhash hk (named_of_key? hkey hnamed) hvalueNamed hsize hstore

/-- A write that fails leaves the map. -/
theorem store_error (h : Represents hash t M) (hs : t.Sound hash m) (hle : m ≤ c.clear)
    (hhash : Value.RespectsEq hash) (hvalueNamed : value.Named m.fresh)
    (hsize : t.array.size ≤ 2 ^ 31) {e : Error}
    (hstore : t.store hash c key value = (.error e, u)) : Represents hash u M := by
  unfold Table.store storedKey at hstore
  cases hkey : key.key? with
  | none =>
    rw [hkey] at hstore
    cases hstore
    exact h
  | some k =>
    rw [hkey] at hstore
    exact h.storeKey_error hs hle hhash (Value.stored_of_key? hkey) hvalueNamed hsize hstore

/-- Reading an integer key. -/
theorem getInt_eq (h : Represents hash t M) (hs : t.Sound hash m) (k : Int64) :
    t.getInt (m.context hash) k = M.read (.int k) :=
  h.get_eq hs m.alive (.int k)

/-- Copying a value is a copy in the map. -/
theorem copy (h : Represents hash t M) (hs : t.Sound hash m) (hle : m ≤ c.clear)
    (hhash : Value.RespectsEq hash) (hsize : t.array.size ≤ 2 ^ 31) {job : Nat × Nat}
    (hcopy : t.copy hash m c job = (.ok (), u)) : Represents hash u (M.copy job) := by
  have hnamed := hs.get_named hhash (.int (Int64.ofNat job.1))
  have hread := h.getInt_eq hs (Int64.ofNat job.1)
  unfold Contents.copy
  rw [← hread]
  exact h.storeKey hs hle hhash (Value.stored_int _) nofun hnamed hsize hcopy

/-- A copy that fails leaves the map. -/
theorem copy_error (h : Represents hash t M) (hs : t.Sound hash m) (hle : m ≤ c.clear)
    (hhash : Value.RespectsEq hash) (hsize : t.array.size ≤ 2 ^ 31) {job : Nat × Nat} {e : Error}
    (hcopy : t.copy hash m c job = (.error e, u)) : Represents hash u M :=
  h.storeKey_error hs hle hhash (Value.stored_int _) (hs.get_named hhash (.int (Int64.ofNat job.1)))
    hsize hcopy

/-- Copies are copies in the map. -/
theorem copies {jobs : List (Nat × Nat)} (h : Represents hash t M) (hs : t.Sound hash m)
    (hhash : Value.RespectsEq hash) (hcopies : Copies hash jobs m t n u) :
    Represents hash u (M.copyAll jobs) := by
  induction hcopies generalizing M with
  | done m t => exact h
  | @step job _ m _ c t u _ hle hsize hcopy _ ih =>
    have hevolved := (hs.copy hle hhash hsize job).1
    rw [hcopy] at hevolved
    exact ih (h.copy hs hle hhash hsize hcopy) hevolved.sound

end Represents

/-- Shifting the values of a table shifts those of its map. -/
theorem shiftedUp_content {values : Value → Value}
    (h : ∀ k : Value, k.Stored → values k = M.read k.content) (first count : Nat) (value : Value)
    (hkey : key.Stored) :
    shiftedUp values first count value key = shiftedUp M.read first count value key.content := by
  by_cases hint : ∃ k, key = .int k
  · obtain ⟨k, rfl⟩ := hint
    show (if _ then _ else if _ then _ else _) = (if _ then _ else if _ then _ else _)
    rw [h _ (Value.stored_int _), h _ (Value.stored_int _)]
    rfl
  · have hint' : ∀ k, key ≠ .int k := fun k hk ↦ hint ⟨k, hk⟩
    have hcontent : ∀ k, key.content ≠ .int k := fun k hk ↦ hint' k (Value.content_eq_int hk)
    rw [shiftedUp_of_not_int _ _ _ _ hint', shiftedUp_of_not_int _ _ _ _ hcontent, h _ hkey]

theorem shiftedDown_content {values : Value → Value}
    (h : ∀ k : Value, k.Stored → values k = M.read k.content) (first count : Nat)
    (hkey : key.Stored) :
    shiftedDown values first count key = shiftedDown M.read first count key.content := by
  by_cases hint : ∃ k, key = .int k
  · obtain ⟨k, rfl⟩ := hint
    show (if _ then _ else if _ then _ else _) = (if _ then _ else if _ then _ else _)
    rw [h _ (Value.stored_int _), h _ (Value.stored_int _)]
    rfl
  · have hint' : ∀ k, key ≠ .int k := fun k hk ↦ hint ⟨k, hk⟩
    have hcontent : ∀ k, key.content ≠ .int k := fun k hk ↦ hint' k (Value.content_eq_int hk)
    rw [shiftedDown_of_not_int _ _ _ hint', shiftedDown_of_not_int _ _ _ hcontent, h _ hkey]

namespace Represents

/-- An insertion is one into the map, at the border that the table reports. -/
theorem inserts {position : Int64} {made : List (Nat × Nat)} (h : Represents hash t M)
    (hs : t.Sound hash m) (hhash : Value.RespectsEq hash) (hsize : t.array.size ≤ 2 ^ 31)
    (hnamed : value.Named m.fresh) (hinsert : Inserts hash m t position value made (.ok ()) n u) :
    Represents hash u (M.insert (t.length (m.context hash)) position value) := by
  have hlength := hs.length_lt hsize (m.context hash)
  have hmode := (hinsert.evolved hs hhash hsize hnamed).2.1.mode.trans h.mode
  generalize hn : t.length (m.context hash) = border at hlength
  refine .of_stored hmode fun k hk ↦ ?_
  -- The position and the number of shifted values are those of the map.
  have hshift : ∀ {first count : Nat}, first + count = border + 1 →
      (first : Int) = insertPosition border position →
      (M.insert border position value).read = shiftedUp M.read first count value := by
    intro first count hsum hfirst
    have hfirst' : (insertPosition border position).toNat = first := by omega
    have hcount : border + 1 - first = count := by omega
    simp only [Contents.insert, Contents.shiftUp, hfirst', hcount]
  cases hinsert with
  | inArray hinsertion =>
    obtain ⟨hsound, -, first, count, -, hsum, hfirst, -, hget, -⟩ :=
      hs.insertion_inArray hhash hsize hnamed hn hinsertion
    rw [hshift hsum hfirst, ← hsound.get_eq_valueOf hmode m.alive]
    refine (hget k hk).trans (shiftedUp_content (fun l hl ↦ ?_) _ _ _ hk)
    exact (hs.get_eq_valueOf h.mode m.alive l).trans (h.valueOf_stored hl)
  | byKey hinsertion hcopies hle hsize' hstore =>
    obtain ⟨-, hsum, hfirst⟩ := hs.insertion_byKey hhash hsize hnamed hn hinsertion
    obtain ⟨hmn, hevolved⟩ := hcopies.evolved hs hhash
    have hwrite := (h.copies hs hhash hcopies).storeKey hevolved.sound hle hhash
      (Value.stored_int _) nofun (hnamed.mono (Moment.fresh_le hmn)) hsize' hstore
    rw [hwrite.valueOf_stored hk, hshift hsum hfirst,
      Contents.read_copyAll_copiesUp _ _ _ (by omega)]

/-- A removal is one from the map, at the border that the table reports. -/
theorem removes {position : Int64} {made : List (Nat × Nat)} {removed : Value}
    (h : Represents hash t M) (hs : t.Sound hash m) (hhash : Value.RespectsEq hash)
    (hsize : t.array.size ≤ 2 ^ 31) (hremove : Removes hash m t position made (.ok removed) n u) :
    Represents hash u (M.remove (t.length (m.context hash)) position) := by
  have hlength := hs.length_lt hsize (m.context hash)
  have hmode := (hremove.evolved hs hhash hsize).2.1.mode.trans h.mode
  generalize hn : t.length (m.context hash) = border at hlength
  -- The position and the number of shifted values are those of the map.
  have hshift : ∀ {first count : Nat}, 1 ≤ first →
      (first + count = border ∨ first = border + 1 ∧ count = 0) →
      (first : Int) = removePosition border position →
      (M.remove border position).read = shiftedDown M.read first count := by
    intro first count hpos hsum hfirst
    have hfirst' : (removePosition border position).toNat = first := by omega
    have hcount : border - first = count := by omega
    have hnot : ¬ (position = 0 ∧ border = 0) := by
      rintro ⟨rfl, rfl⟩
      rw [removePosition, if_pos rfl] at hfirst
      omega
    simp only [Contents.remove, if_neg hnot, Contents.shiftDown, hfirst', hcount]
  generalize hr : (Except.ok removed : Except Error Value) = r at hremove
  cases hremove with
  | refused => cases hr
  | stopped => cases hr
  | inArray hremoval =>
    obtain ⟨hsound, -, -, ⟨hposition, hborder, -, rfl⟩ |
      ⟨first, count, hpos, hsum, hfirst, -, hget⟩⟩ := hs.removal_inArray hsize hn hremoval
    · rw [Contents.remove, if_pos ⟨hposition, hborder⟩]
      exact h
    · refine .of_stored hmode fun k hk ↦ ?_
      rw [hshift hpos hsum hfirst, ← hsound.get_eq_valueOf hmode m.alive]
      refine (hget k hk).trans (shiftedDown_content (fun l hl ↦ ?_) _ _ hk)
      exact (hs.get_eq_valueOf h.mode m.alive l).trans (h.valueOf_stored hl)
  | @byKey first count n c w _ r hremoval hcopies hle hsize' hstore =>
    obtain ⟨hpos, hsum, hfirst⟩ := hs.removal_byKey hsize hn hremoval
    cases r with
    | error e => cases hr
    | ok _ =>
      obtain ⟨-, hevolved⟩ := hcopies.evolved hs hhash
      have hwrite := (h.copies hs hhash hcopies).storeKey hevolved.sound hle hhash
        (Value.stored_int _) (fun _ hr ↦ by cases hr) (fun _ hr ↦ by cases hr) hsize' hstore
      refine .of_stored hmode fun k hk ↦ ?_
      rw [hwrite.valueOf_stored hk, hshift hpos hsum hfirst,
        Contents.read_copyAll_copiesDown _ _ _ (by omega)]

/-- An insertion that fails has made the copies that it lists. -/
theorem inserts_error {position : Int64} {made : List (Nat × Nat)} {e : Error}
    (h : Represents hash t M) (hs : t.Sound hash m) (hhash : Value.RespectsEq hash)
    (hnamed : value.Named m.fresh) (hinsert : Inserts hash m t position value made (.error e) n u) :
    Represents hash u (M.copyAll made) := by
  cases hinsert with
  | refused => exact h
  | byKey _ hcopies hle hsize hstore =>
    obtain ⟨hmn, hevolved⟩ := hcopies.evolved hs hhash
    exact (h.copies hs hhash hcopies).storeKey_error hevolved.sound hle hhash (Value.stored_int _)
      (hnamed.mono (Moment.fresh_le hmn)) hsize hstore
  | stopped _ _ hcopies hle hsize hcopy =>
    have hu := (hcopies.evolved hs hhash).2.sound
    exact (h.copies hs hhash hcopies).copy_error hu hle hhash hsize hcopy

/-- A removal that fails has made the copies that it lists. -/
theorem removes_error {position : Int64} {made : List (Nat × Nat)} {e : Error}
    (h : Represents hash t M) (hs : t.Sound hash m) (hhash : Value.RespectsEq hash)
    (hremove : Removes hash m t position made (.error e) n u) :
    Represents hash u (M.copyAll made) := by
  generalize hr : (Except.error e : Except Error Value) = r at hremove
  cases hremove with
  | refused => exact h
  | inArray => cases hr
  | @byKey _ _ n _ _ _ r _ hcopies hle hsize hstore =>
    cases r with
    | ok _ => cases hr
    | error e' =>
      have hnil : Value.nil.Named n.fresh := nofun
      exact (h.copies hs hhash hcopies).storeKey_error (hcopies.evolved hs hhash).2.sound hle hhash
        (Value.stored_int _) hnil hsize hstore
  | stopped _ _ hcopies hle hsize hcopy =>
    have hu := (hcopies.evolved hs hhash).2.sound
    exact (h.copies hs hhash hcopies).copy_error hu hle hhash hsize hcopy

end Represents

/-- A table that is never weak and the map that it stands for. Cells may be released between the
operations and, within a write, between its steps. A write changes the map if it is done; insertions
and removals shift the values up to the border that the table reports, or stop after some copies
when they fail; an enumeration step and a new metatable leave the map alone. -/
inductive History (hash : Value → UInt64) (hint : Nat) : Moment → Table → Contents → Prop
  | new (m : Moment) : History hash hint m (withHashSize hint) .empty
  | wait {m n : Moment} {t : Table} {M : Contents} (h : History hash hint m t M) (hle : m ≤ n) :
      History hash hint n t M
  | stored {m : Moment} {c : Course} {t u : Table} {M : Contents} {key value : Value}
      (h : History hash hint m t M) (hsize : t.array.size ≤ 2 ^ 31) (hle : m ≤ c.clear)
      (hnamed : key.Named m.fresh) (hvalueNamed : value.Named m.fresh)
      (hstore : t.store hash c key value = (.ok (), u)) :
      History hash hint c.last u (M.set key value)
  | notStored {m : Moment} {c : Course} {t u : Table} {M : Contents} {key value : Value} {e : Error}
      (h : History hash hint m t M) (hsize : t.array.size ≤ 2 ^ 31) (hle : m ≤ c.clear)
      (hnamed : key.Named m.fresh) (hvalueNamed : value.Named m.fresh)
      (hstore : t.store hash c key value = (.error e, u)) : History hash hint c.last u M
  | inserted {m n : Moment} {t u : Table} {M : Contents} {position : Int64} {value : Value}
      {made : List (Nat × Nat)} (h : History hash hint m t M) (hsize : t.array.size ≤ 2 ^ 31)
      (hvalueNamed : value.Named m.fresh)
      (hinsert : Inserts hash m t position value made (.ok ()) n u) :
      History hash hint n u (M.insert (t.length (m.context hash)) position value)
  | notInserted {m n : Moment} {t u : Table} {M : Contents} {position : Int64} {value : Value}
      {made : List (Nat × Nat)} {e : Error} (h : History hash hint m t M)
      (hsize : t.array.size ≤ 2 ^ 31) (hvalueNamed : value.Named m.fresh)
      (hinsert : Inserts hash m t position value made (.error e) n u) :
      History hash hint n u (M.copyAll made)
  | removed {m n : Moment} {t u : Table} {M : Contents} {position : Int64} {removed : Value}
      {made : List (Nat × Nat)} (h : History hash hint m t M) (hsize : t.array.size ≤ 2 ^ 31)
      (hremove : Removes hash m t position made (.ok removed) n u) :
      History hash hint n u (M.remove (t.length (m.context hash)) position)
  | notRemoved {m n : Moment} {t u : Table} {M : Contents} {position : Int64}
      {made : List (Nat × Nat)} {e : Error} (h : History hash hint m t M)
      (hsize : t.array.size ≤ 2 ^ 31) (hremove : Removes hash m t position made (.error e) n u) :
      History hash hint n u (M.copyAll made)
  | next {m : Moment} {t u : Table} {M : Contents} {key : Value} {e : Option (Value × Value)}
      (h : History hash hint m t M) (hnext : t.next (m.context hash) key = .ok (e, u)) :
      History hash hint m u M
  | setMetatable {m n : Moment} {t u : Table} {M : Contents} {metatable : Option Ref}
      (h : History hash hint m t M) (hsize : t.array.size ≤ 2 ^ 31) (hle : m ≤ n)
      (hset : Table.setMode (n.context hash) { t with metatable } .strong = .ok u) :
      History hash hint n u M

namespace History

/-- The table of a history is reached. -/
theorem reaches (h : History hash hint m t M) : Reaches hash hint m t := by
  induction h with
  | new m => exact .new m
  | wait _ hle ih => exact .wait ih hle
  | stored _ hsize hle hnamed hvalueNamed hstore ih =>
    have hreaches := Reaches.store ih hsize hle hnamed hvalueNamed
    rwa [hstore] at hreaches
  | notStored _ hsize hle hnamed hvalueNamed hstore ih =>
    have hreaches := Reaches.store ih hsize hle hnamed hvalueNamed
    rwa [hstore] at hreaches
  | inserted _ hsize hvalueNamed hinsert ih => exact .insert ih hsize hvalueNamed hinsert
  | notInserted _ hsize hvalueNamed hinsert ih => exact .insert ih hsize hvalueNamed hinsert
  | removed _ hsize hremove ih => exact .remove ih hsize hremove
  | notRemoved _ hsize hremove ih => exact .remove ih hsize hremove
  | next _ hnext ih => exact .next ih hnext
  | setMetatable _ hsize hle hset ih => exact .setMetatable ih hsize hle hset

/-- A new table has no values. -/
theorem represents_withHashSize (hash : Value → UInt64) (hint : Nat) :
    Represents hash (withHashSize hint) .empty :=
  .of_stored rfl fun k _ ↦ get_withHashSize _ hint k

/-- The table of a history has the values of its map. -/
theorem represents (h : History hash hint m t M) (hhash : Value.RespectsEq hash) :
    Represents hash t M := by
  induction h with
  | new m => exact represents_withHashSize hash hint
  | wait _ _ ih => exact ih
  | stored h hsize hle hnamed hvalueNamed hstore ih =>
    exact ih.store (h.reaches.sound hhash).1 hle hhash hnamed hvalueNamed hsize hstore
  | notStored h hsize hle _ hvalueNamed hstore ih =>
    exact ih.store_error (h.reaches.sound hhash).1 hle hhash hvalueNamed hsize hstore
  | inserted h hsize hvalueNamed hinsert ih =>
    exact ih.inserts (h.reaches.sound hhash).1 hhash hsize hvalueNamed hinsert
  | notInserted h hsize hvalueNamed hinsert ih =>
    exact ih.inserts_error (h.reaches.sound hhash).1 hhash hvalueNamed hinsert
  | removed h hsize hremove ih => exact ih.removes (h.reaches.sound hhash).1 hhash hsize hremove
  | notRemoved h hsize hremove ih => exact ih.removes_error (h.reaches.sound hhash).1 hhash hremove
  | @next _ t u _ key _ h hnext ih =>
    -- The table at most remembers that the step was made.
    rcases next_cases (Moment.context _ hash) t key with herror | ⟨e, u', hok, hu⟩
    · rw [hnext] at herror
      cases herror
    · rw [hnext] at hok
      cases hok
      rcases hu with rfl | rfl
      · exact ih
      · exact ih.congr rfl fun _ ↦ rfl
  | @setMetatable _ _ t u _ metatable h hsize hle hset ih =>
    unfold Table.setMode at hset
    rw [if_pos ih.mode.symm] at hset
    cases hset
    exact ih.congr rfl fun _ ↦ rfl

end History

/-! ## What a table answers -/

/-- There is no room for a key, and the rehash reports that the table would be too large. -/
def Overflows (hash : Value → UInt64) (c : Course) (t : Table) (key value : Value) : Prop :=
  ∃ k w, key.key? = some k ∧ t.tryStore hash c.clear c.place k value = (.ok false, w) ∧
    w.rehash (c.place.context hash) (some k) = .error .tableOverflow

/-- All names of slots are taken, in a table that was made for more entries than there are names. -/
def OutOfNames (hash : Value → UInt64) (hint : Nat) (c : Course) (t : Table) (key value : Value) :
    Prop :=
  2 ^ 32 < hint ∧ ∃ k w, key.key? = some k ∧
    t.tryStore hash c.clear c.place k value = (.error (.fault .noSlot), w)

/-- What a table reads is what a map has. -/
structure Reads (hash : Value → UInt64) (t : Table) (M : Contents) : Prop where
  get : ∀ alive key, t.get ⟨hash, alive⟩ key = M.get key
  noKey : ∀ alive key, key.NoKey → t.get ⟨hash, alive⟩ key = .nil
  getInt : ∀ alive k, t.getInt ⟨hash, alive⟩ k = t.get ⟨hash, alive⟩ (.int k)
  getStr : ∀ alive s, t.getStr ⟨hash, alive⟩ s.bytes = t.get ⟨hash, alive⟩ (.str s)

/-- A write that is done changes its key and no other, and a write that fails changes none. It fails
for nil, for NaN, when the table is too large, and when there are no names. -/
structure Writes (hash : Value → UInt64) (hint : Nat) (m : Moment) (t : Table) (M : Contents) :
    Prop where
  stored : ∀ (c : Course) (key value : Value) (u : Table), m ≤ c.clear → key.Named m.fresh →
    value.Named m.fresh → t.store hash c key value = (.ok (), u) →
    u.Reads hash (M.set key value) ∧ ∀ alive k, u.get ⟨hash, alive⟩ k =
      if k.normal? = key.normal? then value else t.get ⟨hash, alive⟩ k
  failed : ∀ (c : Course) (key value : Value) (e : Error) (u : Table), m ≤ c.clear →
    key.Named m.fresh → value.Named m.fresh → t.store hash c key value = (.error e, u) →
    u.Reads hash M ∧ ∀ alive k, u.get ⟨hash, alive⟩ k = t.get ⟨hash, alive⟩ k
  fails_iff : ∀ (c : Course) (key value : Value) (e : Error), m ≤ c.clear → key.Named m.fresh →
    value.Named m.fresh → ((t.store hash c key value).1 = .error e ↔
      key = .nil ∧ e = .nilKey ∨
      (∃ x : Double, key = .float x ∧ x.isNaN = true) ∧ e = .nanKey ∨
      Overflows hash c t key value ∧ e = .tableOverflow ∨
      OutOfNames hash hint c t key value ∧ e = .fault .noSlot)

/-- A table that represents a map reads as it. -/
theorem Represents.reads (h : Represents hash t M) (hs : t.Sound hash m) : t.Reads hash M where
  get := h.get_eq hs
  noKey := fun _ key hkey ↦ get_of_key?_none _ _ ((Value.key?_eq_none_iff key).mpr hkey)
  getInt := fun _ _ ↦ rfl
  getStr := fun alive s ↦
    (h.get_eq hs alive (.str ⟨s.bytes, 0⟩)).trans (h.get_eq hs alive (.str s)).symm

/-- A write under what is no key fails, with an error for each of the two values that are none. -/
theorem store_error_iff_of_noKey (hkey : key.key? = none) (e : Error) :
    (t.store hash c key value).1 = .error e ↔
      key = .nil ∧ e = .nilKey ∨ (∃ x : Double, key = .float x ∧ x.isNaN = true) ∧ e = .nanKey := by
  unfold Table.store storedKey
  rcases (Value.key?_eq_none_iff key).mp hkey with rfl | ⟨x, rfl, hnan⟩
  · constructor
    · rintro ⟨rfl⟩
      exact .inl ⟨rfl, rfl⟩
    · rintro (⟨-, rfl⟩ | ⟨⟨x, hx, -⟩, -⟩)
      · rfl
      · cases hx
  · rw [hkey]
    constructor
    · rintro ⟨rfl⟩
      exact .inr ⟨⟨x, rfl, hnan⟩, rfl⟩
    · rintro (⟨hx, -⟩ | ⟨-, rfl⟩)
      · cases hx
      · rfl

/-- A write under a key fails if the table is too large, or has no name left for a slot. -/
theorem Sound.store_error_iff_of_key? (hs : t.Sound hash m) (hle : m ≤ c.clear)
    (hhash : Value.RespectsEq hash) (hvalueNamed : value.Named m.fresh)
    (hsize : t.array.size ≤ 2 ^ 31) (hlimit : t.buckets.size ≤ bucketLimit hint) {k : Value}
    (hkey : key.key? = some k) (e : Error) :
    (t.store hash c key value).1 = .error e ↔
      Overflows hash c t key value ∧ e = .tableOverflow ∨
      OutOfNames hash hint c t key value ∧ e = .fault .noSlot := by
  unfold Table.store storedKey
  rw [hkey]
  have houtcome := (hs.later hle).storeKey_cases hhash (Value.stored_of_key? hkey)
    (hvalueNamed.mono (Moment.fresh_le hle)) hsize
  constructor
  · intro he
    change (t.storeKey hash c k value).1 = _ at he
    generalize t.storeKey hash c k value = outcome at houtcome he
    obtain ⟨r, u⟩ := outcome
    subst he
    cases houtcome with
    | overflow h htry hrehash => exact .inl ⟨⟨k, _, hkey, htry, hrehash⟩, rfl⟩
    | noSlot h htry =>
      cases h with
      | noSlot hw hcleared _ _ hnames =>
        have hnames' := hcleared.frame.size ▸ hnames
        exact .inr ⟨⟨lt_hint_of_lt_bucketLimit (hnames'.trans_le hlimit), k, _, hkey, htry⟩, rfl⟩
  · rintro (⟨⟨l, w, hl, htry, hrehash⟩, rfl⟩ | ⟨⟨-, l, w, hl, htry⟩, rfl⟩)
    · cases hkey.symm.trans hl
      show (t.storeKey hash c k value).1 = _
      simp only [Table.storeKey, htry, hrehash]
    · cases hkey.symm.trans hl
      show (t.storeKey hash c k value).1 = _
      simp only [Table.storeKey, htry]

/-- When a write fails, and with which error. -/
theorem Sound.store_error_iff (hs : t.Sound hash m) (hle : m ≤ c.clear)
    (hhash : Value.RespectsEq hash) (hvalueNamed : value.Named m.fresh)
    (hsize : t.array.size ≤ 2 ^ 31) (hlimit : t.buckets.size ≤ bucketLimit hint) (e : Error) :
    (t.store hash c key value).1 = .error e ↔
      key = .nil ∧ e = .nilKey ∨
      (∃ x : Double, key = .float x ∧ x.isNaN = true) ∧ e = .nanKey ∨
      Overflows hash c t key value ∧ e = .tableOverflow ∨
      OutOfNames hash hint c t key value ∧ e = .fault .noSlot := by
  cases hkey : key.key? with
  | none =>
    have hoverflow : ¬ Overflows hash c t key value := by
      rintro ⟨k, w, hk, -⟩
      cases hkey.symm.trans hk
    have hnames : ¬ OutOfNames hash hint c t key value := by
      rintro ⟨-, k, w, hk, -⟩
      cases hkey.symm.trans hk
    simp only [hoverflow, hnames, false_and, or_false]
    exact store_error_iff_of_noKey hkey e
  | some k =>
    have hnot : ¬ key.NoKey := fun h ↦ by
      cases hkey.symm.trans ((Value.key?_eq_none_iff key).mpr h)
    have hnil : key ≠ .nil := fun h ↦ hnot (.inl h)
    have hnan : ¬ ∃ x : Double, key = .float x ∧ x.isNaN = true := fun h ↦ hnot (.inr h)
    simp only [hnil, hnan, false_and, false_or]
    exact hs.store_error_iff_of_key? hle hhash hvalueNamed hsize hlimit hkey e

/-- A table that is never weak is a finite map: it reads as the map of its history, and its writes
change the key that is written to and nothing else. -/
theorem History.refines_contents (hhash : Value.RespectsEq hash) (h : History hash hint m t M) :
    t.Reads hash M ∧ (t.array.size ≤ 2 ^ 31 → t.Writes hash hint m M) := by
  obtain ⟨hs, hlimit⟩ := h.reaches.sound hhash
  have hreads := (h.represents hhash).reads hs
  refine ⟨hreads, fun hsize ↦ ⟨?_, ?_, ?_⟩⟩
  · intro c key value u hle hnamed hvalueNamed hstore
    have h' := History.stored h hsize hle hnamed hvalueNamed hstore
    have hreads' := (h'.represents hhash).reads (h'.reaches.sound hhash).1
    have hkey : ¬ key.NoKey := by
      intro hno
      unfold Table.store storedKey at hstore
      rw [(Value.key?_eq_none_iff key).mpr hno] at hstore
      cases hstore
    refine ⟨hreads', fun alive k ↦ ?_⟩
    rw [hreads'.get, hreads.get, Contents.get_set M hkey]
  · intro c key value e u hle hnamed hvalueNamed hstore
    have h' := History.notStored h hsize hle hnamed hvalueNamed hstore
    have hreads' := (h'.represents hhash).reads (h'.reaches.sound hhash).1
    exact ⟨hreads', fun alive k ↦ (hreads'.get alive k).trans (hreads.get alive k).symm⟩
  · intro c key value e hle _ hvalueNamed
    exact hs.store_error_iff hle hhash hvalueNamed hsize hlimit e

/-- A value that is inserted before another one moves it up. -/
theorem refines_contents_of_insertion :
    ∃ t M, History Value.hash 4 .origin t M ∧ M.read (.int 2) = .bool true ∧
      t.Reads Value.hash M ∧ t.Writes Value.hash 4 .origin M := by
  let first := (store Value.hash (.still .origin) (withHashSize 4) (.int 1) (.bool true)).2
  have hfirst : History Value.hash 4 .origin first (Contents.empty.set (.int 1) (.bool true)) := by
    refine History.stored (c := .still .origin) (.new .origin) ?_ (le_refl _) ?_ ?_ ?_
    · decide
    · exact nofun
    · exact nofun
    · exact Prod.ext rfl rfl
  have hlength : first.length (Moment.origin.context Value.hash) = 1 := by decide +kernel
  have hinsertion : first.insertion (Moment.origin.context Value.hash) 1 (.bool false) =
      .ok (.inArray .nil { first with array := #[.bool false, .bool true] }) := by
    have harray : first.array.insertIdxIfInBounds 0 (.bool false) = #[.bool false, .bool true] := by
      decide +kernel
    rw [insertion_eq _ _ _ _ hlength rfl]
    show Shift.inArray .nil <$>
      absorbTail _ { first with array := first.array.insertIdxIfInBounds 0 _ } = _
    rw [harray]
    rfl
  have hsecond := History.inserted hfirst (by decide +kernel) (by exact nofun) (.inArray hinsertion)
  obtain ⟨hreads, hwrites⟩ := hsecond.refines_contents Value.rawEq_hash
  refine ⟨_, _, hsecond, ?_, hreads, hwrites (by decide)⟩
  rw [hlength]
  decide +kernel

end LuaData.Table
