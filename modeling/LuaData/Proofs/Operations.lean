import LuaData.Proofs.Lists
import LuaData.Table.Enumerate

/-!
# The operations on a table

Every operation on a table leaves a well-formed table behind and changes neither its metatable nor
its weak mode, unless that is what it is for. `Evolved` says so, and `Refusal` which errors an
operation can end with. Insertions and removals that go key by key are sequences of writes, each at
moments of its own (`Copies`); `Inserts` and `Removes` put them together with what `Table.insertion`
and `Table.removal` decide.
-/

namespace LuaData.Table

variable {hash : Value → UInt64} {m n : Moment} {c : Course} {t u w : Table} {key value : Value}

/-- What an operation leaves of a table. -/
structure Evolved (hash : Value → UInt64) (n : Moment) (t u : Table) : Prop where
  sound : u.Sound hash n
  metatable : u.metatable = t.metatable
  mode : u.mode = t.mode
  buckets_le : u.buckets.size ≤ max t.buckets.size (2 ^ 30)

/-- One operation after the other. -/
theorem Evolved.trans {s : Table} (h : Evolved hash m s t) (h' : Evolved hash n t u) :
    Evolved hash n s u where
  sound := h'.sound
  metatable := h'.metatable.trans h.metatable
  mode := h'.mode.trans h.mode
  buckets_le := by
    have := h.buckets_le
    have := h'.buckets_le
    omega

/-- An operation that leaves the frame of a table. -/
theorem Frame.evolved (h : Frame t u) (hu : u.Sound hash n) : Evolved hash n t u :=
  ⟨hu, h.metatable, h.mode, h.size ▸ Nat.le_max_left _ _⟩

/-- The errors that an operation can end with: one about the key, the position or the size of the
table, or that all names of slots are taken. -/
def Refusal (t : Table) (e : Error) : Prop :=
  e.kind = .index ∨ e = .fault .noSlot ∧ 2 ^ 32 < t.buckets.size

/-- An operation that is refused later could have been refused before. -/
theorem Evolved.refusal {e : Error} (h : Evolved hash n t u) (he : u.Refusal e) : t.Refusal e := by
  rcases he with hkind | ⟨rfl, hnames⟩
  · exact .inl hkind
  · have := h.buckets_le
    exact .inr ⟨rfl, by omega⟩

/-- The stored form of a key is the key or inline. -/
theorem eq_or_inline_of_key? {k : Value} (h : key.key? = some k) : k = key ∨ ∃ i, k = .int i := by
  unfold Value.key? at h
  split at h
  · cases h
  · split at h
    · cases h
    · split at h
      · cases h
        exact .inr ⟨_, rfl⟩
      · cases h
        exact .inl rfl
  · cases h
    exact .inl rfl

/-- The stored form of a key refers to the same cell. -/
theorem named_of_key? {fresh : Ref} {k : Value} (h : key.key? = some k) (hnamed : key.Named fresh) :
    k.Named fresh := by
  rcases eq_or_inline_of_key? h with rfl | ⟨i, rfl⟩
  · exact hnamed
  · exact nofun

namespace Sound

/-- The values of a table have been named. -/
theorem get_named (hs : t.Sound hash m) (hhash : Value.RespectsEq hash) (key : Value) :
    (t.get (m.context hash) key).Named m.fresh := by
  cases hkey : key.key? with
  | none =>
    rw [get_of_key?_none _ _ hkey]
    exact nofun
  | some k =>
    rw [get_of_key?_some _ _ hkey]
    split
    · exact hs.getD_named _
    · by_cases hnil : t.getFromHash (m.context hash) k = .nil
      · rw [hnil]
        exact nofun
      · obtain ⟨i, l, hentry, -⟩ :=
          hs.entry_of_getFromHash hhash (Value.stored_of_key? hkey) hnil
        exact (hs.binding?_fits hentry).2.2.2.1

/-- A write under a stored key. -/
theorem storeKey (hs : t.Sound hash m) (hle : m ≤ c.clear) (hhash : Value.RespectsEq hash)
    (hkey : key.Stored) (hnamed : key.Named m.fresh) (hvalueNamed : value.Named m.fresh)
    (hsize : t.array.size ≤ 2 ^ 31) :
    Evolved hash c.last t (t.storeKey hash c key value).2 ∧
      ∀ e, (t.storeKey hash c key value).1 = .error e → t.Refusal e := by
  have hnamed' := hnamed.mono (Moment.fresh_le hle)
  have hvalueNamed' := hvalueNamed.mono (Moment.fresh_le hle)
  have houtcome := (hs.later hle).storeKey_cases hhash hkey hvalueNamed' hsize
  have hsound := houtcome.sound hhash hkey hnamed' hvalueNamed' hsize
  obtain ⟨hmetatable, hmode, hbuckets⟩ := houtcome.frame hhash hvalueNamed' hsize
  refine ⟨⟨hsound, hmetatable, hmode, hbuckets⟩, fun e he ↦ ?_⟩
  generalize t.storeKey hash c key value = outcome at houtcome he
  obtain ⟨r, u⟩ := outcome
  subst he
  cases houtcome with
  | overflow h => exact .inl rfl
  | noSlot h =>
    cases h with
    | noSlot hw hcleared _ _ hnames => exact .inr ⟨rfl, hcleared.frame.size ▸ hnames⟩

/-- A write under an integer key. -/
theorem storeInt (hs : t.Sound hash m) (hle : m ≤ c.clear) (hhash : Value.RespectsEq hash)
    (hvalueNamed : value.Named m.fresh) (hsize : t.array.size ≤ 2 ^ 31) (k : Int64) :
    Evolved hash c.last t (t.storeKey hash c (.int k) value).2 ∧
      ∀ e, (t.storeKey hash c (.int k) value).1 = .error e → t.Refusal e :=
  hs.storeKey hle hhash (Value.stored_int k) nofun hvalueNamed hsize

/-- A write under any key. -/
theorem store (hs : t.Sound hash m) (hle : m ≤ c.clear) (hhash : Value.RespectsEq hash)
    (hnamed : key.Named m.fresh) (hvalueNamed : value.Named m.fresh)
    (hsize : t.array.size ≤ 2 ^ 31) :
    Evolved hash c.last t (t.store hash c key value).2 ∧
      ∀ e, (t.store hash c key value).1 = .error e → t.Refusal e := by
  unfold Table.store storedKey
  cases hkey : key.key? with
  | none =>
    refine ⟨(Frame.refl t).evolved (hs.later (hle.trans c.clear_le_last)), ?_⟩
    rintro e ⟨rfl⟩
    refine .inl ?_
    split <;> rfl
  | some k =>
    exact hs.storeKey hle hhash (Value.stored_of_key? hkey) (named_of_key? hkey hnamed) hvalueNamed
      hsize

end Sound

/-! ## Insertions and removals -/

/-- The copies that shift the values of the keys `first, …, first + count - 1` one key up: from
which key and to which. -/
def copiesUp (first : Nat) : Nat → List (Nat × Nat)
  | 0 => []
  | count + 1 => (first + count, first + count + 1) :: copiesUp first count

/-- The copies that shift the values of the keys `first + 1, …, first + count` one key down. -/
def copiesDown (first : Nat) : Nat → List (Nat × Nat)
  | 0 => []
  | count + 1 => (first + 1, first) :: copiesDown (first + 1) count

/-- Copying the value of one integer key to another: it is read at a moment, and held until it is
written. -/
def copy (hash : Value → UInt64) (m : Moment) (c : Course) (t : Table) (job : Nat × Nat) :
    Except Error Unit × Table :=
  t.storeKey hash c (.int (Int64.ofNat job.2)) (t.getInt (m.context hash) (Int64.ofNat job.1))

/-- A list of copies, one after the other. -/
inductive Copies (hash : Value → UInt64) : List (Nat × Nat) → Moment → Table → Moment → Table → Prop
  | done (m : Moment) (t : Table) : Copies hash [] m t m t
  | step {job : Nat × Nat} {jobs : List (Nat × Nat)} {m n : Moment} {c : Course} {t u w : Table}
      (hle : m ≤ c.clear) (hsize : t.array.size ≤ 2 ^ 31)
      (hcopy : t.copy hash m c job = (.ok (), u)) (h : Copies hash jobs c.last u n w) :
      Copies hash (job :: jobs) m t n w

/-- Inserting a value. The copies that were made are listed. -/
inductive Inserts (hash : Value → UInt64) (m : Moment) (t : Table) (position : Int64)
    (value : Value) : List (Nat × Nat) → Except Error Unit → Moment → Table → Prop
  | refused {e : Error} (h : t.insertion (m.context hash) position value = .error e) :
      Inserts hash m t position value [] (.error e) m t
  | inArray {removed : Value} {u : Table}
      (h : t.insertion (m.context hash) position value = .ok (.inArray removed u)) :
      Inserts hash m t position value [] (.ok ()) m u
  | byKey {first count : Nat} {n : Moment} {c : Course} {u w : Table} {r : Except Error Unit}
      (h : t.insertion (m.context hash) position value = .ok (.byKey first count))
      (hcopies : Copies hash (copiesUp first count) m t n u) (hle : n ≤ c.clear)
      (hsize : u.array.size ≤ 2 ^ 31)
      (hstore : u.storeKey hash c (.int (Int64.ofNat first)) value = (r, w)) :
      Inserts hash m t position value (copiesUp first count) r c.last w
  | stopped {first count : Nat} {n : Moment} {c : Course} {u w : Table} {e : Error}
      {made rest : List (Nat × Nat)} {job : Nat × Nat}
      (h : t.insertion (m.context hash) position value = .ok (.byKey first count))
      (hjobs : copiesUp first count = made ++ job :: rest) (hcopies : Copies hash made m t n u)
      (hle : n ≤ c.clear) (hsize : u.array.size ≤ 2 ^ 31)
      (hcopy : u.copy hash n c job = (.error e, w)) :
      Inserts hash m t position value made (.error e) c.last w

/-- Removing a value. The copies that were made are listed. -/
inductive Removes (hash : Value → UInt64) (m : Moment) (t : Table) (position : Int64) :
    List (Nat × Nat) → Except Error Value → Moment → Table → Prop
  | refused {e : Error} (h : t.removal (m.context hash) position = .error e) :
      Removes hash m t position [] (.error e) m t
  | inArray {removed : Value} {u : Table}
      (h : t.removal (m.context hash) position = .ok (.inArray removed u)) :
      Removes hash m t position [] (.ok removed) m u
  | byKey {first count : Nat} {n : Moment} {c : Course} {u w : Table} {r : Except Error Unit}
      (h : t.removal (m.context hash) position = .ok (.byKey first count))
      (hcopies : Copies hash (copiesDown first count) m t n u) (hle : n ≤ c.clear)
      (hsize : u.array.size ≤ 2 ^ 31)
      (hstore : u.storeKey hash c (.int (Int64.ofNat (first + count))) .nil = (r, w)) :
      Removes hash m t position (copiesDown first count)
        ((fun _ ↦ t.getInt (m.context hash) (Int64.ofNat first)) <$> r) c.last w
  | stopped {first count : Nat} {n : Moment} {c : Course} {u w : Table} {e : Error}
      {made rest : List (Nat × Nat)} {job : Nat × Nat}
      (h : t.removal (m.context hash) position = .ok (.byKey first count))
      (hjobs : copiesDown first count = made ++ job :: rest) (hcopies : Copies hash made m t n u)
      (hle : n ≤ c.clear) (hsize : u.array.size ≤ 2 ^ 31)
      (hcopy : u.copy hash n c job = (.error e, w)) :
      Removes hash m t position made (.error e) c.last w

/-- Copying a value is a write. -/
theorem Sound.copy (hs : t.Sound hash m) (hle : m ≤ c.clear) (hhash : Value.RespectsEq hash)
    (hsize : t.array.size ≤ 2 ^ 31) (job : Nat × Nat) :
    Evolved hash c.last t (t.copy hash m c job).2 ∧
      ∀ e, (t.copy hash m c job).1 = .error e → t.Refusal e :=
  hs.storeInt hle hhash (hs.get_named hhash (.int (Int64.ofNat job.1))) hsize _

/-- Copies take their time, and keep a table well formed. -/
theorem Copies.evolved {jobs : List (Nat × Nat)} (h : Copies hash jobs m t n u)
    (hs : t.Sound hash m) (hhash : Value.RespectsEq hash) : m ≤ n ∧ Evolved hash n t u := by
  induction h with
  | done m t => exact ⟨le_refl m, (Frame.refl t).evolved hs⟩
  | @step job _ m _ c t u _ hle hsize hcopy _ ih =>
    have hevolved := (hs.copy hle hhash hsize job).1
    rw [hcopy] at hevolved
    obtain ⟨hle', hrest⟩ := ih hevolved.sound
    exact ⟨hle.trans (c.clear_le_last.trans hle'), hevolved.trans hrest⟩

/-- An insertion keeps a table well formed, also when it fails. -/
theorem Inserts.evolved {position : Int64} {made : List (Nat × Nat)} {r : Except Error Unit}
    (h : Inserts hash m t position value made r n u) (hs : t.Sound hash m)
    (hhash : Value.RespectsEq hash) (hsize : t.array.size ≤ 2 ^ 31)
    (hnamed : value.Named m.fresh) :
    m ≤ n ∧ Evolved hash n t u ∧ ∀ e, r = .error e → t.Refusal e := by
  cases h with
  | refused h =>
    refine ⟨le_refl m, (Frame.refl t).evolved hs, ?_⟩
    rintro _ ⟨rfl⟩
    obtain ⟨-, rfl⟩ := hs.insertion_error hhash hsize hnamed rfl h
    exact .inl rfl
  | inArray h =>
    obtain ⟨hsound, hframe, -⟩ := hs.insertion_inArray hhash hsize hnamed rfl h
    exact ⟨le_refl m, hframe.evolved hsound, nofun⟩
  | @byKey first _ _ _ _ _ _ h hcopies hle hsize' hstore =>
    obtain ⟨hmn, hevolved⟩ := hcopies.evolved hs hhash
    have hwrite := hevolved.sound.storeInt hle hhash (hnamed.mono (Moment.fresh_le hmn)) hsize'
      (Int64.ofNat first)
    rw [hstore] at hwrite
    exact ⟨hmn.trans (hle.trans (Course.clear_le_last _)), hevolved.trans hwrite.1,
      fun e he ↦ hevolved.refusal (hwrite.2 e he)⟩
  | @stopped _ _ _ _ _ _ _ _ _ job h hjobs hcopies hle hsize' hcopy =>
    obtain ⟨hmn, hevolved⟩ := hcopies.evolved hs hhash
    have hwrite := hevolved.sound.copy hle hhash hsize' job
    rw [hcopy] at hwrite
    exact ⟨hmn.trans (hle.trans (Course.clear_le_last _)), hevolved.trans hwrite.1,
      fun e he ↦ hevolved.refusal (hwrite.2 e he)⟩

/-- A removal keeps a table well formed, also when it fails. -/
theorem Removes.evolved {position : Int64} {made : List (Nat × Nat)} {r : Except Error Value}
    (h : Removes hash m t position made r n u) (hs : t.Sound hash m)
    (hhash : Value.RespectsEq hash) (hsize : t.array.size ≤ 2 ^ 31) :
    m ≤ n ∧ Evolved hash n t u ∧ ∀ e, r = .error e → t.Refusal e := by
  cases h with
  | refused h =>
    refine ⟨le_refl m, (Frame.refl t).evolved hs, ?_⟩
    rintro _ ⟨rfl⟩
    obtain ⟨-, rfl⟩ := hs.removal_error hsize rfl h
    exact .inl rfl
  | inArray h =>
    obtain ⟨hsound, hframe, -⟩ := hs.removal_inArray hsize rfl h
    exact ⟨le_refl m, hframe.evolved hsound, nofun⟩
  | @byKey first count n c u w r h hcopies hle hsize' hstore =>
    obtain ⟨hmn, hevolved⟩ := hcopies.evolved hs hhash
    have hnil : Value.nil.Named n.fresh := nofun
    have hwrite := hevolved.sound.storeInt hle hhash hnil hsize' (Int64.ofNat (first + count))
    rw [hstore] at hwrite
    refine ⟨hmn.trans (hle.trans (Course.clear_le_last _)), hevolved.trans hwrite.1, fun e he ↦ ?_⟩
    cases r with
    | error e' =>
      cases he
      exact hevolved.refusal (hwrite.2 e rfl)
    | ok _ => cases he
  | @stopped _ _ _ _ _ _ _ _ _ job h hjobs hcopies hle hsize' hcopy =>
    obtain ⟨hmn, hevolved⟩ := hcopies.evolved hs hhash
    have hwrite := hevolved.sound.copy hle hhash hsize' job
    rw [hcopy] at hwrite
    refine ⟨hmn.trans (hle.trans (Course.clear_le_last _)), hevolved.trans hwrite.1, ?_⟩
    rintro _ ⟨rfl⟩
    exact hevolved.refusal (hwrite.2 _ rfl)

end LuaData.Table
