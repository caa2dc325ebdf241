import LuaData.Proofs.Resizing

/-!
# Storing a value

A write to a table goes through several moments: its chain is cleared, the value is placed, and if
there is no room for it the table is rehashed and the two are done again. Each of them can let the
last handle on a cell go, so the next one may see fewer cells alive. `Course` is such a sequence of
moments and `Table.store` is the write along it, with the table that it leaves when it fails.
`Sound.store_cases` tells all that can come of it.
-/

namespace LuaData

/-- The moments of a write: those of the two halves of the first attempt and, after a rehash, of the
second. -/
structure Course where
  clear : Moment
  place : Moment
  clearAgain : Moment
  placeAgain : Moment
  clear_le : clear ≤ place
  place_le : place ≤ clearAgain
  clearAgain_le : clearAgain ≤ placeAgain

namespace Course

/-- The moment when a write is over. -/
def last (c : Course) : Moment := c.placeAgain

/-- A write in which nothing is released. -/
def still (m : Moment) : Course := ⟨m, m, m, m, le_refl m, le_refl m, le_refl m⟩

/-- The first attempt is made before the write is over. -/
theorem place_le_last (c : Course) : c.place ≤ c.last :=
  c.place_le.trans c.clearAgain_le

/-- A write takes its time. -/
theorem clear_le_last (c : Course) : c.clear ≤ c.last :=
  c.clear_le.trans c.place_le_last

end Course

namespace Table

variable {hash : Value → UInt64} {m n : Moment} {c : Course} {t u w : Table} {key value : Value}

/-- Try to write under a stored key. The answer is whether there was room, and the table comes with
it. -/
def tryStore (hash : Value → UInt64) (m n : Moment) (t : Table) (key value : Value) :
    Except Error Bool × Table :=
  match t.makeReady (m.context hash) key value with
  | .error e => (.error e, t)
  | .ok ready =>
    match ready.place (n.context hash) key value with
    | .error e => (.error e, ready)
    | .ok (.stored u) => (.ok true, u)
    | .ok (.full u) => (.ok false, u)

/-- Store a value under a stored key, after a rehash if there is no room. -/
def storeKey (hash : Value → UInt64) (c : Course) (t : Table) (key value : Value) :
    Except Error Unit × Table :=
  match t.tryStore hash c.clear c.place key value with
  | (.error e, u) => (.error e, u)
  | (.ok true, u) => (.ok (), u)
  | (.ok false, u) =>
    match u.rehash (c.place.context hash) (some key) with
    | .error e => (.error e, u)
    | .ok u =>
      match u.tryStore hash c.clearAgain c.placeAgain key value with
      | (.error e, w) => (.error e, w)
      | (.ok true, w) => (.ok (), w)
      | (.ok false, w) => (.error (.fault .noRoom), w)

/-- Store a value under a key; nil removes the key. -/
def store (hash : Value → UInt64) (c : Course) (t : Table) (key value : Value) :
    Except Error Unit × Table :=
  match storedKey key with
  | .error e => (.error e, t)
  | .ok key => t.storeKey hash c key value

/-- A stored key is its own stored form. -/
theorem storedKey_of_stored {key : Value} (h : key.Stored) : storedKey key = .ok key := by
  rw [storedKey, show key.key? = some key from h]

/-- A write in which nothing is released is `Table.set`. -/
theorem store_still (hash : Value → UInt64) (m : Moment) (t : Table) (key value : Value) :
    t.set (m.context hash) key value =
      match t.store hash (.still m) key value with
      | (.error e, _) => .error e
      | (.ok _, u) => .ok u := by
  unfold set store
  cases storedKey key with
  | error e => rfl
  | ok key =>
    simp only [setKey, attempt, storeKey, tryStore, Course.still, bind, Except.bind]
    cases t.makeReady (m.context hash) key value with
    | error e => rfl
    | ok ready =>
      simp only
      cases ready.place (m.context hash) key value with
      | error e => rfl
      | ok placement =>
        cases placement with
        | stored u => rfl
        | full u =>
          simp only
          cases u.rehash (m.context hash) (some key) with
          | error e => rfl
          | ok v =>
            simp only
            cases v.makeReady (m.context hash) key value with
            | error e => rfl
            | ok ready =>
              simp only
              cases ready.place (m.context hash) key value with
              | error e => rfl
              | ok placement => cases placement <;> rfl

/-- What can come of an attempt to write: with `w` the cleared table, the write is done, or there is
no room, or all names of slots are taken. -/
inductive Attempt (hash : Value → UInt64) (m n : Moment) (t : Table) (key value : Value) :
    Except Error Bool → Table → Prop
  | stored {w u : Table} (hw : w.Sound hash m) (hcleared : Cleared m.alive t w)
      (hplaced : Placed hash n w key value u)
      (hready : t.makeReady (m.context hash) key value = .ok w) :
      Attempt hash m n t key value (.ok true) u
  | full {w : Table} (hw : w.Sound hash m) (hcleared : Cleared m.alive t w)
      (hindex : w.index? key = none) (hvalue : value ≠ .nil)
      (hslot : w.slot? (n.context hash) key = none) (hroom : w.buckets.size ≤ w.arena.used)
      (hready : t.makeReady (m.context hash) key value = .ok w) :
      Attempt hash m n t key value (.ok false) w
  | noSlot {w : Table} (hw : w.Sound hash m) (hcleared : Cleared m.alive t w)
      (hindex : w.index? key = none) (hslot : w.slot? (n.context hash) key = none)
      (hnames : 2 ^ 32 < w.buckets.size)
      (hready : t.makeReady (m.context hash) key value = .ok w) :
      Attempt hash m n t key value (.error (.fault .noSlot)) w

namespace Sound

/-- Clearing the way to a key succeeds. -/
theorem makeReady (hs : t.Sound hash m) (key value : Value) :
    ∃ w, t.makeReady (m.context hash) key value = .ok w ∧ w.Sound hash m ∧ Cleared m.alive t w := by
  unfold Table.makeReady
  split
  · exact hs.pruneBucket _
  · exact ⟨t, rfl, hs, .refl m.alive t⟩

/-- What an attempt to write comes to. -/
theorem tryStore_cases (hs : t.Sound hash m) (hmn : m ≤ n) (hhash : Value.RespectsEq hash)
    (hkey : key.Stored) (hvalueNamed : value.Named n.fresh) (hsize : t.array.size ≤ 2 ^ 62) :
    Attempt hash m n t key value (t.tryStore hash m n key value).1
      (t.tryStore hash m n key value).2 := by
  obtain ⟨w, hready, hw, hcleared⟩ := hs.makeReady key value
  simp only [tryStore, hready]
  rcases (hw.later hmn).place_cases hhash hkey hvalueNamed (hcleared.array ▸ hsize) with
    ⟨u, hplace, hplaced⟩ | ⟨hplace, hindex, hvalue, hslot, hroom⟩ | ⟨hplace, hindex, hslot, hnames⟩
  · simp only [hplace]
    exact .stored hw hcleared hplaced hready
  · simp only [hplace]
    exact .full hw hcleared hindex hvalue hslot hroom hready
  · simp only [hplace]
    exact .noSlot hw hcleared hindex hslot hnames hready

end Sound

/-- What can come of a write under a stored key. -/
inductive Outcome (hash : Value → UInt64) (c : Course) (t : Table) (key value : Value) :
    Except Error Unit → Table → Prop
  /-- The first attempt stores the value. -/
  | stored {u : Table} (h : Attempt hash c.clear c.place t key value (.ok true) u) :
      Outcome hash c t key value (.ok ()) u
  /-- The value is stored after a rehash. -/
  | rehashed {w v u : Table} (h : Attempt hash c.clear c.place t key value (.ok false) w)
      (hv : Rebuilt hash c.place w w.mode (some key) v)
      (hu : Attempt hash c.clearAgain c.placeAgain v key value (.ok true) u) :
      Outcome hash c t key value (.ok ()) u
  /-- A rehash reports that the table is too large. -/
  | overflow {w : Table} (h : Attempt hash c.clear c.place t key value (.ok false) w)
      (htry : t.tryStore hash c.clear c.place key value = (.ok false, w))
      (hrehash : w.rehash (c.place.context hash) (some key) = .error .tableOverflow) :
      Outcome hash c t key value (.error .tableOverflow) w
  /-- All names of slots are taken. -/
  | noSlot {w : Table}
      (h : Attempt hash c.clear c.place t key value (.error (.fault .noSlot)) w)
      (htry : t.tryStore hash c.clear c.place key value = (.error (.fault .noSlot), w)) :
      Outcome hash c t key value (.error (.fault .noSlot)) w

namespace Attempt

variable {r : Except Error Bool}

/-- An attempt to write keeps a table well formed. -/
theorem sound (h : Attempt hash m n t key value r u) (hmn : m ≤ n) (hhash : Value.RespectsEq hash)
    (hkey : key.Stored) (hnamed : key.Named n.fresh) (hvalueNamed : value.Named n.fresh)
    (hsize : t.array.size ≤ 2 ^ 62) : u.Sound hash n := by
  cases h with
  | stored hw hcleared hplaced =>
    exact hplaced.sound (hw.later hmn) hhash hkey hnamed hvalueNamed (hcleared.array ▸ hsize)
  | full hw => exact hw.later hmn
  | noSlot hw => exact hw.later hmn

/-- An attempt to write leaves the frame of the table. -/
theorem frame (h : Attempt hash m n t key value r u) (hmn : m ≤ n) (hhash : Value.RespectsEq hash)
    (hvalueNamed : value.Named n.fresh) (hsize : t.array.size ≤ 2 ^ 62) : Frame t u := by
  cases h with
  | stored hw hcleared hplaced =>
    exact hcleared.frame.trans
      (hplaced.frame (hw.later hmn) hhash hvalueNamed (hcleared.array ▸ hsize))
  | full _ hcleared => exact hcleared.frame
  | noSlot _ hcleared => exact hcleared.frame

end Attempt

/-- After a rehash for a key, a write under it is done at the first attempt. -/
theorem Rebuilt.tryStore_again {mode : WeakMode} {before : Moment}
    (h : Rebuilt hash before t mode (some key) u) (hle : before ≤ m) (hmn : m ≤ n)
    (hhash : Value.RespectsEq hash) (hkey : key.Stored) (hvalueNamed : value.Named n.fresh) :
    ∃ w, u.tryStore hash m n key value = (.ok true, w) ∧
      Attempt hash m n u key value (.ok true) w := by
  have hattempt := (h.sound.later hle).tryStore_cases hmn hhash hkey hvalueNamed
    (h.array_le.trans (by omega))
  generalize u.tryStore hash m n key value = attempt at hattempt ⊢
  obtain ⟨r, w⟩ := attempt
  -- The rehash made room, and it never makes more buckets than there are names.
  cases hattempt with
  | stored hw hcleared hplaced hready => exact ⟨w, rfl, .stored hw hcleared hplaced hready⟩
  | noSlot hw hcleared _ _ hnames =>
    have := hcleared.frame.size
    have := h.buckets_le
    omega
  | full hw hcleared hindex _ _ hroom =>
    have hindex' : u.index? key = none := by
      rw [← index?_congr (congrArg Array.size hcleared.array)]
      exact hindex
    have := h.room key rfl hindex'
    have := hcleared.used_le
    have := hcleared.frame.size
    omega

namespace Sound

/-- What a write under a stored key comes to. -/
theorem storeKey_cases (hs : t.Sound hash c.clear) (hhash : Value.RespectsEq hash)
    (hkey : key.Stored) (hvalueNamed : value.Named c.clear.fresh) (hsize : t.array.size ≤ 2 ^ 31) :
    Outcome hash c t key value (t.storeKey hash c key value).1 (t.storeKey hash c key value).2 := by
  have hnamed : ∀ {m : Moment}, c.clear ≤ m → value.Named m.fresh :=
    fun hle ↦ hvalueNamed.mono (Moment.fresh_le hle)
  have hfirst := hs.tryStore_cases c.clear_le hhash hkey (hnamed c.clear_le) (by omega)
  unfold storeKey
  generalize htry : t.tryStore hash c.clear c.place key value = attempt at hfirst ⊢
  obtain ⟨r, w⟩ := attempt
  cases hfirst with
  | stored hw hcleared hplaced hready => exact .stored (.stored hw hcleared hplaced hready)
  | noSlot hw hcleared hindex hslot hnames hready =>
    exact .noSlot (.noSlot hw hcleared hindex hslot hnames hready) htry
  | full hw hcleared hindex hvalue hslot hroom hready =>
    have hfull : Attempt hash c.clear c.place t key value (.ok false) w :=
      .full hw hcleared hindex hvalue hslot hroom hready
    rcases (hw.later c.clear_le).rehash hhash (hcleared.array ▸ hsize) w.mode (some key) with
      ⟨hrehash, -⟩ | ⟨v, hrehash, hv⟩
    · have hrehash' : w.rehash (c.place.context hash) (some key) = .error .tableOverflow := hrehash
      simp only [hrehash']
      exact .overflow hfull htry hrehash'
    · have hrehash' : w.rehash (c.place.context hash) (some key) = .ok v := hrehash
      obtain ⟨u, hagain, hu⟩ := hv.tryStore_again c.place_le c.clearAgain_le hhash hkey
        (hnamed c.clear_le_last)
      simp only [hrehash', hagain]
      exact .rehashed hfull hv hu

end Sound

namespace Outcome

variable {r : Except Error Unit}

/-- A write keeps a table well formed, also when it fails. -/
theorem sound (h : Outcome hash c t key value r u) (hhash : Value.RespectsEq hash)
    (hkey : key.Stored) (hnamed : key.Named c.clear.fresh) (hvalueNamed : value.Named c.clear.fresh)
    (hsize : t.array.size ≤ 2 ^ 31) : u.Sound hash c.last := by
  have hnamed' : ∀ {v : Value} {m : Moment},
      v.Named c.clear.fresh → c.clear ≤ m → v.Named m.fresh :=
    fun hv hle ↦ hv.mono (Moment.fresh_le hle)
  have hfirst : ∀ {r : Except Error Bool} {u : Table},
      Attempt hash c.clear c.place t key value r u → u.Sound hash c.last := fun h ↦
    (h.sound c.clear_le hhash hkey (hnamed' hnamed c.clear_le) (hnamed' hvalueNamed c.clear_le)
      (by omega)).later c.place_le_last
  cases h with
  | stored h => exact hfirst h
  | rehashed h hv hu =>
    exact hu.sound c.clearAgain_le hhash hkey (hnamed' hnamed c.clear_le_last)
      (hnamed' hvalueNamed c.clear_le_last) (hv.array_le.trans (by omega))
  | overflow h => exact hfirst h
  | noSlot h => exact hfirst h

/-- A write leaves the metatable and the weak mode, and a rehash is the only thing that changes the
number of buckets. -/
theorem frame (h : Outcome hash c t key value r u) (hhash : Value.RespectsEq hash)
    (hvalueNamed : value.Named c.clear.fresh) (hsize : t.array.size ≤ 2 ^ 31) :
    u.metatable = t.metatable ∧ u.mode = t.mode ∧ u.buckets.size ≤ max t.buckets.size (2 ^ 30) := by
  have hnamed : ∀ {m : Moment}, c.clear ≤ m → value.Named m.fresh :=
    fun hle ↦ hvalueNamed.mono (Moment.fresh_le hle)
  have hfirst : ∀ {r : Except Error Bool} {u : Table},
      Attempt hash c.clear c.place t key value r u → Frame t u :=
    fun h ↦ h.frame c.clear_le hhash (hnamed c.clear_le) (by omega)
  have hsame : ∀ {u : Table}, Frame t u → u.metatable = t.metatable ∧ u.mode = t.mode ∧
      u.buckets.size ≤ max t.buckets.size (2 ^ 30) :=
    fun hframe ↦ ⟨hframe.metatable, hframe.mode, hframe.size ▸ Nat.le_max_left _ _⟩
  cases h with
  | stored h => exact hsame (hfirst h)
  | rehashed h hv hu =>
    have hwframe := hfirst h
    have huframe := hu.frame c.clearAgain_le hhash (hnamed c.clear_le_last)
      (hv.array_le.trans (by omega))
    refine ⟨?_, ?_, ?_⟩
    · rw [huframe.metatable, hv.metatable, hwframe.metatable]
    · rw [huframe.mode, hv.mode_eq, hwframe.mode]
    · rw [huframe.size]
      exact hv.buckets_le.trans (Nat.le_max_right _ _)
  | overflow h => exact hsame (hfirst h)
  | noSlot h => exact hsame (hfirst h)

end Outcome

/-! ## As time passes -/

namespace Sound

/-- An entry of a slot is stored with the handles of the mode. -/
theorem state_of_binding? (hs : t.Sound hash m) {i : Nat} {k v : Value}
    (h : t.arena.binding? m.alive i = some (k, v)) :
    t.arena.state i = .live (.ofEntry k t.mode.keys) (.ofEntry v t.mode.values) := by
  obtain ⟨hk, hv⟩ := Arena.binding?_eq_some_iff.mp h
  cases hstate : t.arena.state i with
  | live key value =>
    rw [Arena.key?, hstate] at hk
    rw [Arena.value?, hstate] at hv
    obtain ⟨hkey, hvalue, -⟩ := (hs.fits i).live key value hstate
    rw [← Handle.target_of_get hk, ← Handle.target_of_get hv, ← hkey, ← hvalue]
  | dead key =>
    rw [Arena.value?, hstate] at hv
    cases hv
  | free =>
    rw [Arena.value?, hstate] at hv
    cases hv

/-- A slot that has an entry has had it before. -/
theorem binding?_of_le (hs : t.Sound hash m) (hle : m ≤ n) {i : Nat} {e : Value × Value}
    (h : t.arena.binding? n.alive i = some e) : t.arena.binding? m.alive i = some e := by
  obtain ⟨k, v⟩ := e
  have hstate := (hs.later hle).state_of_binding? h
  obtain ⟨-, -, hne, hvnamed⟩ := (hs.fits i).live _ _ hstate
  have hknamed := ((hs.fits i).key _ (by rw [hstate]; rfl)).2.1
  obtain ⟨hk, hv⟩ := Arena.binding?_eq_some_iff.mp h
  rw [Arena.key?, hstate] at hk
  rw [Arena.value?, hstate] at hv
  refine Arena.binding?_eq_some_iff.mpr ⟨?_, ?_⟩
  · rw [Arena.key?, hstate]
    exact Handle.get_of_le hle hknamed hk
  · rw [Arena.value?, hstate]
    exact Handle.get_of_le hle hvnamed hv

/-- As time passes a table keeps the entries whose handles are not empty. -/
theorem get_later (hs : t.Sound hash m) (hle : m ≤ n) (hhash : Value.RespectsEq hash)
    (hkey : key.Stored) :
    t.get (n.context hash) key =
      if Kept n.alive t.mode (key, t.get (m.context hash) key) then t.get (m.context hash) key
      else .nil := by
  have hsn := hs.later hle
  rw [get_of_stored _ _ hkey, get_of_stored _ _ hkey]
  cases hindex : t.index? key with
  | some i => exact (if_pos (hsn.kept_of_index? hindex _)).symm
  | none =>
    show t.getFromHash (n.context hash) key = if Kept n.alive t.mode
      (key, t.getFromHash (m.context hash) key) then t.getFromHash (m.context hash) key else .nil
    by_cases hnil : t.getFromHash (m.context hash) key = .nil
    · rw [hnil, ite_self]
      refine hsn.getFromHash_eq_nil hhash hkey fun i k v hentry hcontent ↦ ?_
      have hentry' := hs.binding?_of_le hle hentry
      rw [hs.getFromHash_of_entry hhash hkey hentry' hcontent] at hnil
      exact hs.value?_ne_nil (Arena.binding?_eq_some_iff.mp hentry').2 hnil
    · -- The slot that has the entry keeps it, or no slot has one for the key any more.
      obtain ⟨i, k, hentry, hcontent⟩ := hs.entry_of_getFromHash hhash hkey hnil
      have hbinding := binding?_of_entry n.alive t.mode (hs.state_of_binding? hentry)
      rw [if_congr (kept_congr hcontent.symm _) rfl rfl]
      split
      · rename_i hkept
        rw [if_pos hkept] at hbinding
        exact hsn.getFromHash_of_entry hhash hkey hbinding hcontent
      · rename_i hlost
        rw [if_neg hlost] at hbinding
        refine hsn.getFromHash_eq_nil hhash hkey fun j l v hl hlcontent ↦ ?_
        have hl' := (Arena.binding?_eq_some_iff.mp (hs.binding?_of_le hle hl)).1
        obtain rfl := hs.distinct j i l k hl' (Arena.binding?_eq_some_iff.mp hentry).1
          (hlcontent.trans hcontent.symm)
        rw [hl] at hbinding
        cases hbinding

/-- What a table shows is kept. -/
theorem kept_of_get (hs : t.Sound hash m) (hhash : Value.RespectsEq hash) (hkey : key.Stored)
    (hne : t.get (m.context hash) key ≠ .nil) :
    Kept m.alive t.mode (key, t.get (m.context hash) key) := by
  by_contra hlost
  have hget := hs.get_later (le_refl m) hhash hkey
  rw [if_neg hlost] at hget
  exact hne hget

end Sound

/-- An entry that is kept was kept before. -/
theorem kept_of_le (hle : m ≤ n) {mode : WeakMode} (hnamed : key.Named m.fresh)
    (hvalueNamed : value.Named m.fresh) (h : Kept n.alive mode (key, value)) :
    Kept m.alive mode (key, value) := by
  refine ⟨Handle.get_of_le hle ?_ h.1, Handle.get_of_le hle ?_ h.2⟩
  · rwa [Handle.target_ofEntry]
  · rwa [Handle.target_ofEntry]

/-- Tables of one mode with the same values have the same values later. -/
theorem SameValues.later (h : SameValues hash m t u) (hs : t.Sound hash m) (hu : u.Sound hash m)
    (hmode : u.mode = t.mode) (hhash : Value.RespectsEq hash) (hle : m ≤ n) :
    SameValues hash n t u := by
  intro k hk
  rw [hu.get_later hle hhash hk, hs.get_later hle hhash hk, hmode, h k hk]

/-- `u` has the values of `t`, but for one key under which a value was written. It is there while
the entry is kept. -/
def Rewritten (hash : Value → UInt64) (m : Moment) (t : Table) (key value : Value) (u : Table) :
    Prop :=
  Updated hash m t key (if Kept m.alive t.mode (key, value) then value else .nil) u

/-- What was written stays while the entry is kept. -/
theorem Rewritten.later (h : Rewritten hash m t key value u) (hs : t.Sound hash m)
    (hu : u.Sound hash m) (hmode : u.mode = t.mode) (hhash : Value.RespectsEq hash)
    (hnamed : key.Named m.fresh) (hvalueNamed : value.Named m.fresh) (hle : m ≤ n) :
    Rewritten hash n t key value u := by
  intro k hk
  rw [hu.get_later hle hhash hk, hs.get_later hle hhash hk, hmode, h k hk]
  by_cases hcontent : k.content = key.content
  · simp only [if_pos hcontent]
    by_cases hkept : Kept n.alive t.mode (key, value)
    · rw [if_pos (kept_of_le hle hnamed hvalueNamed hkept), if_pos hkept,
        if_pos ((kept_congr hcontent value).mpr hkept)]
    · rw [if_neg hkept]
      by_cases hkept' : Kept m.alive t.mode (key, value)
      · rw [if_pos hkept', if_neg fun h ↦ hkept ((kept_congr hcontent value).mp h)]
      · rw [if_neg hkept', ite_self]
  · simp only [if_neg hcontent]

/-! ## What a write stores -/

/-- A cleared table has the same values, now and later. -/
theorem Cleared.same (h : Cleared m.alive t w) (hs : t.Sound hash m) (hw : w.Sound hash m)
    (hhash : Value.RespectsEq hash) (hle : m ≤ n) : SameValues hash n t w := by
  have hsame : SameValues hash m t w := fun k _ ↦ hs.get_cleared hhash hw h k
  exact hsame.later hs hw h.frame.mode hhash hle

namespace Attempt

variable {r : Except Error Bool}

/-- An attempt that is done stores the value. -/
theorem rewritten (h : Attempt hash m n t key value (.ok true) u) (hs : t.Sound hash m)
    (hmn : m ≤ n) (hhash : Value.RespectsEq hash) (hkey : key.Stored) (hnamed : key.Named n.fresh)
    (hvalueNamed : value.Named n.fresh) (hsize : t.array.size ≤ 2 ^ 62) :
    Rewritten hash n t key value u := by
  cases h with
  | @stored w _ hw hcleared hplaced =>
    have hsame := hcleared.same hs hw hhash hmn
    have hupdated := hplaced.updated_ite (hw.later hmn) hhash hkey hnamed hvalueNamed
      (hcleared.array ▸ hsize)
    intro k hk
    rw [hupdated k hk, hcleared.frame.mode, hsame k hk]

/-- An attempt that is not done at most clears the table. -/
theorem cleared (h : Attempt hash m n t key value r u) (hr : r ≠ .ok true) :
    u.Sound hash m ∧ Cleared m.alive t u := by
  cases h with
  | stored => exact absurd rfl hr
  | full hw hcleared => exact ⟨hw, hcleared⟩
  | noSlot hw hcleared => exact ⟨hw, hcleared⟩

end Attempt

/-- A rehash without a change of the mode changes no value. -/
theorem Rebuilt.same_of_mode {extra : Option Value} (h : Rebuilt hash m t t.mode extra u)
    (hs : t.Sound hash m) (hhash : Value.RespectsEq hash) : SameValues hash m t u := by
  intro k hk
  rw [h.values k hk]
  by_cases hnil : t.get (m.context hash) k = .nil
  · rw [hnil, ite_self]
  · exact if_pos (hs.kept_of_get hhash hk hnil)

namespace Outcome

/-- A write that is done stores the value. -/
theorem rewritten (h : Outcome hash c t key value (.ok ()) u) (hs : t.Sound hash c.clear)
    (hhash : Value.RespectsEq hash) (hkey : key.Stored) (hnamed : key.Named c.clear.fresh)
    (hvalueNamed : value.Named c.clear.fresh) (hsize : t.array.size ≤ 2 ^ 31) :
    Rewritten hash c.last t key value u := by
  have hnamed' : ∀ {v : Value} {m : Moment},
      v.Named c.clear.fresh → c.clear ≤ m → v.Named m.fresh :=
    fun hv hle ↦ hv.mono (Moment.fresh_le hle)
  have hkeyNamed := hnamed' hnamed c.clear_le
  have hvNamed := hnamed' hvalueNamed c.clear_le
  have hsize' : t.array.size ≤ 2 ^ 62 := by omega
  have hs' := hs.later c.clear_le
  cases h with
  | stored h =>
    have hu := h.sound c.clear_le hhash hkey hkeyNamed hvNamed hsize'
    have hmode := (h.frame c.clear_le hhash hvNamed hsize').mode
    exact (h.rewritten hs c.clear_le hhash hkey hkeyNamed hvNamed hsize').later hs' hu hmode hhash
      hkeyNamed hvNamed c.place_le_last
  | @rehashed w v _ h hv hu =>
    have hw := h.sound c.clear_le hhash hkey hkeyNamed hvNamed hsize'
    have hwmode := (h.frame c.clear_le hhash hvNamed hsize').mode
    have hmode : v.mode = t.mode := hv.mode_eq.trans hwmode
    obtain ⟨hw', hcleared⟩ := h.cleared nofun
    have hsame : SameValues hash c.place t v := fun k hk ↦
      (hv.same_of_mode hw hhash k hk).trans (hcleared.same hs hw' hhash c.clear_le k hk)
    have hsame' := hsame.later hs' hv.sound hmode hhash c.place_le_last
    have hrewritten := hu.rewritten (hv.sound.later c.place_le) c.clearAgain_le hhash hkey
      (hnamed' hnamed c.clear_le_last) (hnamed' hvalueNamed c.clear_le_last)
      (hv.array_le.trans (by omega))
    intro k hk
    have hget := hrewritten k hk
    rw [hmode, show v.get (c.placeAgain.context hash) k = _ from hsame' k hk] at hget
    exact hget

/-- A write that fails at most clears the table. -/
theorem cleared {e : Error} (h : Outcome hash c t key value (.error e) u) :
    u.Sound hash c.clear ∧ Cleared c.clear.alive t u := by
  cases h with
  | overflow h => exact h.cleared nofun
  | noSlot h => exact h.cleared nofun

end Outcome

/-- A write that fails leaves the values of all keys. -/
theorem Sound.same_of_store_error (hs : t.Sound hash m) (hle : m ≤ c.clear)
    (hhash : Value.RespectsEq hash) (hvalueNamed : value.Named m.fresh)
    (hsize : t.array.size ≤ 2 ^ 31) {e : Error}
    (hstore : t.store hash c key value = (.error e, u)) : SameValues hash c.last t u := by
  unfold Table.store storedKey at hstore
  cases hkey : key.key? with
  | none =>
    rw [hkey] at hstore
    cases hstore
    exact fun _ _ ↦ rfl
  | some l =>
    rw [hkey] at hstore
    have houtcome := (hs.later hle).storeKey_cases hhash (Value.stored_of_key? hkey)
      (hvalueNamed.mono (Moment.fresh_le hle)) hsize
    rw [show t.storeKey hash c l value = (.error e, u) from hstore] at houtcome
    obtain ⟨hu, hcleared⟩ := houtcome.cleared
    exact hcleared.same (hs.later hle) hu hhash c.clear_le_last

/-! ## Tables without weak handles -/

/-- What a table has under a key when all cells are alive. -/
def valueOf (hash : Value → UInt64) (t : Table) (key : Value) : Value :=
  t.get ⟨hash, fun _ ↦ true⟩ key

namespace Sound

/-- A table that is not weak has the same values whatever is alive. -/
theorem get_eq_valueOf (hs : t.Sound hash m) (hmode : t.mode = .strong) (alive : Ref → Bool)
    (key : Value) : t.get ⟨hash, alive⟩ key = t.valueOf hash key := by
  have hlive : ∀ i k v, t.arena.state i = .live k v → ∀ alive : Ref → Bool,
      k.get alive = some k.target ∧ v.get alive = some v.target := by
    intro i k v hstate alive
    obtain ⟨hk, hv, -⟩ := (hs.fits i).live k v hstate
    rw [hk, hv, hmode, Handle.target_ofEntry, Handle.target_ofEntry]
    exact ⟨rfl, rfl⟩
  have hvalue : t.arena.value? alive = t.arena.value? fun _ ↦ true := by
    funext i
    unfold Arena.value?
    cases hstate : t.arena.state i with
    | live k v => simp only [(hlive i k v hstate _).2]
    | dead k => rfl
    | free => rfl
  have hfind : ∀ chain slotHash p, t.arena.find? alive chain slotHash p =
      t.arena.find? (fun _ ↦ true) chain slotHash p := by
    intro chain slotHash p
    unfold Arena.find?
    congr 1
    funext i
    cases hstate : t.arena.state i with
    | live k v => simp only [Handle.holds, (hlive i k v hstate _).1]
    | dead k => rfl
    | free => rfl
  have hhash : ∀ k, t.getFromHash ⟨hash, alive⟩ k = t.getFromHash ⟨hash, fun _ ↦ true⟩ k := by
    intro k
    simp only [getFromHash, hvalue, hfind]
  unfold valueOf
  cases hkey : key.key? with
  | none => rw [get_of_key?_none _ _ hkey, get_of_key?_none _ _ hkey]
  | some k => rw [get_of_key?_some _ _ hkey, get_of_key?_some _ _ hkey, hhash]

end Sound

namespace Outcome

/-- A write that is done gives the key its value and leaves the values of all other keys. -/
theorem valueOf_eq (h : Outcome hash c t key value (.ok ()) u) (hs : t.Sound hash c.clear)
    (hmode : t.mode = .strong) (hhash : Value.RespectsEq hash) (hkey : key.Stored)
    (hnamed : key.Named c.clear.fresh) (hvalueNamed : value.Named c.clear.fresh)
    (hsize : t.array.size ≤ 2 ^ 31) {k : Value} (hk : k.Stored) :
    u.valueOf hash k = if k.content = key.content then value else t.valueOf hash k := by
  have hu := h.sound hhash hkey hnamed hvalueNamed hsize
  have humode := (h.frame hhash hvalueNamed hsize).2.1.trans hmode
  have hrewritten := h.rewritten hs hhash hkey hnamed hvalueNamed hsize k hk
  have hkept : Kept c.last.alive t.mode (key, value) := hmode ▸ kept_strong c.last.alive _
  rw [if_pos hkept] at hrewritten
  rw [← hu.get_eq_valueOf humode c.last.alive, ← hs.get_eq_valueOf hmode c.last.alive]
  exact hrewritten

/-- A write that fails leaves the values of all keys. -/
theorem valueOf_eq_of_error {e : Error} (h : Outcome hash c t key value (.error e) u)
    (hs : t.Sound hash c.clear) (hmode : t.mode = .strong) (hhash : Value.RespectsEq hash)
    (k : Value) : u.valueOf hash k = t.valueOf hash k := by
  obtain ⟨hu, hcleared⟩ := h.cleared
  rw [← hs.get_eq_valueOf hmode c.clear.alive,
    ← hu.get_eq_valueOf (hcleared.frame.mode.trans hmode) c.clear.alive]
  exact hs.get_cleared hhash hu hcleared k

end Outcome

end Table

end LuaData
