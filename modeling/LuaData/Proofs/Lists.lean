import LuaData.Proofs.Border
import LuaData.Proofs.Storing
import LuaData.Table.Sequence

/-!
# Lists in a table

`Table.insertion` and `Table.removal` either shift the values of a list within the array part or
leave the shift to a number of writes. `Sound.insertion_cases` and `Sound.removal_cases` tell which,
and that the shift within the array part keeps the table well formed and gives the values of
`shiftedUp` and `shiftedDown`. What follows from each outcome is a lemma of its own
(`Sound.insertion_inArray`, `Sound.removal_byKey` and so on).
-/

namespace LuaData.Table

variable {hash : Value → UInt64} {m : Moment} {t u : Table} {value : Value}

/-- The values of keys after those of the integers `first, …, first + count - 1` were moved one key
up and `first` got a value. -/
def shiftedUp (values : Value → Value) (first count : Nat) (value : Value) : Value → Value
  | .int k =>
    if k.toInt = first then value
    else if first < k.toInt ∧ k.toInt ≤ first + count then
      values (.int (Int64.ofInt (k.toInt - 1)))
    else values (.int k)
  | key => values key

/-- The values of keys after those of the integers `first + 1, …, first + count` were moved one key
down and `first + count` was removed. -/
def shiftedDown (values : Value → Value) (first count : Nat) : Value → Value
  | .int k =>
    if k.toInt = first + count then .nil
    else if first ≤ k.toInt ∧ k.toInt < first + count then
      values (.int (Int64.ofInt (k.toInt + 1)))
    else values (.int k)
  | key => values key

/-- What a table has under an integer key. -/
theorem get_int (ctx : Context) (t : Table) (k : Int64) :
    t.get ctx (.int k) =
      if 1 ≤ k.toInt ∧ k.toInt ≤ t.array.size then t.array.getD (k.toInt.toNat - 1) .nil
      else t.getFromHash ctx (.int k) := by
  show t.getInt ctx k = _
  unfold getInt arrayIndex?
  by_cases h : 1 ≤ k.toInt ∧ k.toInt ≤ t.array.size
  · rw [if_pos h, if_pos h]
    show t.array.getD (k.toInt - 1).toNat .nil = _
    congr 1
    omega
  · rw [if_neg h, if_neg h]

/-- A key that is no integer has the value of the hash part. -/
theorem get_of_not_int (ctx : Context) (t : Table) {key : Value} (hkey : key.Stored)
    (hint : ∀ k, key ≠ .int k) : t.get ctx key = t.getFromHash ctx key := by
  rw [get_of_stored _ _ hkey]
  have hnone : t.index? key = none := by
    cases hindex : t.index? key with
    | none => rfl
    | some i =>
      obtain ⟨k, rfl, -⟩ := index?_eq_some_iff.mp hindex
      exact absurd rfl (hint k)
  rw [hnone]

/-- An integer is not shifted if it is out of range, and neither is any other key. -/
theorem shiftedUp_of_not_int (values : Value → Value) (first count : Nat) (value : Value)
    {key : Value} (hint : ∀ k, key ≠ .int k) :
    shiftedUp values first count value key = values key := by
  unfold shiftedUp
  split
  · rename_i k
    exact absurd rfl (hint k)
  · rfl

theorem shiftedDown_of_not_int (values : Value → Value) (first count : Nat) {key : Value}
    (hint : ∀ k, key ≠ .int k) : shiftedDown values first count key = values key := by
  unfold shiftedDown
  split
  · rename_i k
    exact absurd rfl (hint k)
  · rfl

/-- The key before a key in the bounds of the array part. -/
theorem get_ofInt_pred (ctx : Context) (t : Table) {k : Int64} (hpos : 1 < k.toInt)
    (hle : k.toInt ≤ t.array.size + 1) :
    t.get ctx (.int (Int64.ofInt (k.toInt - 1))) = t.array.getD (k.toInt.toNat - 2) .nil := by
  have hlt := k.toInt_lt
  have hk : (Int64.ofInt (k.toInt - 1)).toInt = k.toInt - 1 :=
    Int64.toInt_ofInt_of_le (by omega) (by omega)
  rw [get_int, hk, if_pos (by omega)]
  congr 1
  omega

/-- The key after a key within the bounds of the array part. -/
theorem get_ofInt_succ (ctx : Context) (t : Table) {k : Int64} (hpos : 1 ≤ k.toInt)
    (hlt : k.toInt < t.array.size) (hsize : t.array.size < 2 ^ 63) :
    t.get ctx (.int (Int64.ofInt (k.toInt + 1))) = t.array.getD k.toInt.toNat .nil := by
  have hk : (Int64.ofInt (k.toInt + 1)).toInt = k.toInt + 1 :=
    Int64.toInt_ofInt_of_le (by omega) (by omega)
  rw [get_int, hk, if_pos (by omega)]
  congr 1
  omega

/-- Replacing the array part by one in which the values up to a hole are shifted up, or by one that
is longer by a value, gives the shifted values. -/
theorem get_insertIdx (ctx : Context) {array : Array Value} {first count : Nat} (hfirst : 1 ≤ first)
    (hcount : first + count ≤ array.size) (hsize : array.size ≤ t.array.size + 1)
    (hle : t.array.size ≤ array.size)
    (hend : t.array.size < array.size → first + count = array.size)
    (hget : ∀ j, j < array.size → array.getD j .nil =
      if j + 1 = first then value
      else if first < j + 1 ∧ j + 1 ≤ first + count then t.array.getD (j - 1) .nil
      else t.array.getD j .nil) {key : Value} (hkey : key.Stored) :
    Table.get ctx { t with array } key = shiftedUp (t.get ctx) first count value key := by
  by_cases hint : ∃ k, key = .int k
  · obtain ⟨k, rfl⟩ := hint
    show _ = if k.toInt = first then value
      else if first < k.toInt ∧ k.toInt ≤ first + count then
        t.get ctx (.int (Int64.ofInt (k.toInt - 1)))
      else t.get ctx (.int k)
    rw [get_int]
    by_cases hin : 1 ≤ k.toInt ∧ k.toInt ≤ array.size
    · rw [if_pos hin]
      show array.getD _ .nil = _
      rw [hget _ (by omega)]
      by_cases heq : k.toInt = first
      · rw [if_pos heq, if_pos (by omega)]
      · rw [if_neg heq, if_neg (by omega)]
        by_cases hshift : first < k.toInt ∧ k.toInt ≤ first + count
        · rw [if_pos hshift, if_pos (by omega), get_ofInt_pred ctx t (by omega) (by omega)]
          rfl
        · rw [if_neg hshift, if_neg (by omega), get_int, if_pos (by omega)]
    · rw [if_neg hin, if_neg (by omega), if_neg (by omega), get_int, if_neg (by omega)]
      rfl
  · have hint' : ∀ k, key ≠ .int k := fun k hk ↦ hint ⟨k, hk⟩
    rw [shiftedUp_of_not_int _ _ _ _ hint', get_of_not_int _ _ hkey hint',
      get_of_not_int _ _ hkey hint']
    rfl

/-- Replacing the array part by one in which the values after a key are shifted down gives the
shifted values. -/
theorem get_eraseIdx (ctx : Context) {array : Array Value} {first count : Nat} (hfirst : 1 ≤ first)
    (hcount : first + count ≤ array.size) (hsize : array.size = t.array.size)
    (hle : t.array.size < 2 ^ 63)
    (hget : ∀ j, j < array.size → array.getD j .nil =
      if j + 1 = first + count then .nil
      else if first ≤ j + 1 ∧ j + 1 < first + count then t.array.getD (j + 1) .nil
      else t.array.getD j .nil) {key : Value} (hkey : key.Stored) :
    Table.get ctx { t with array } key = shiftedDown (t.get ctx) first count key := by
  by_cases hint : ∃ k, key = .int k
  · obtain ⟨k, rfl⟩ := hint
    show _ = if k.toInt = first + count then .nil
      else if first ≤ k.toInt ∧ k.toInt < first + count then
        t.get ctx (.int (Int64.ofInt (k.toInt + 1)))
      else t.get ctx (.int k)
    rw [get_int]
    by_cases hin : 1 ≤ k.toInt ∧ k.toInt ≤ array.size
    · rw [if_pos hin]
      show array.getD _ .nil = _
      rw [hget _ (by omega)]
      by_cases heq : k.toInt = first + count
      · rw [if_pos heq, if_pos (by omega)]
      · rw [if_neg heq, if_neg (by omega)]
        by_cases hshift : first ≤ k.toInt ∧ k.toInt < first + count
        · rw [if_pos hshift, if_pos (by omega), get_ofInt_succ ctx t (by omega) (by omega) hle]
          congr 1
          omega
        · rw [if_neg hshift, if_neg (by omega), get_int, if_pos (by omega)]
    · rw [if_neg hin, if_neg (by omega), if_neg (by omega), get_int, if_neg (by omega)]
      rfl
  · have hint' : ∀ k, key ≠ .int k := fun k hk ↦ hint ⟨k, hk⟩
    rw [shiftedDown_of_not_int _ _ _ hint', get_of_not_int _ _ hkey hint',
      get_of_not_int _ _ hkey hint']
    rfl

/-- The position that an insertion means. -/
def insertPosition (n : Nat) (position : Int64) : Int :=
  if position = 0 then n + 1 else position.toInt

/-- The position that a removal means. -/
def removePosition (n : Nat) (position : Int64) : Int :=
  if position = 0 then n else position.toInt

/-- How a value is inserted, by its position `p` and the length `n`. -/
theorem insertion_eq (ctx : Context) (t : Table) (position : Int64) (value : Value) {n : Nat}
    {p : Int} (hn : t.length ctx = n) (hp : insertPosition n position = p) :
    t.insertion ctx position value =
      if p < 1 ∨ (n : Int) + 1 < p then .error (.badPosition (Int64.ofInt p))
      else if p = n + 1 then .ok (.byKey p.toNat 0)
      else if n < t.array.size then
        .ok (.inArray .nil { t with
          array := (t.array.eraseIdxIfInBounds n).insertIdxIfInBounds (p.toNat - 1) value })
      else if n = t.array.size && !t.mode.values && !t.anchored then
        .inArray .nil <$>
          absorbTail ctx { t with array := t.array.insertIdxIfInBounds (p.toNat - 1) value }
      else .ok (.byKey p.toNat (n + 1 - p.toNat)) := by
  subst hn
  unfold insertion
  simp only [insertPosition] at hp
  simp only [hp]
  split
  · rfl
  · split
    · rfl
    · split
      · rfl
      · split
        · simp only [bind, Except.bind, Functor.map, Except.map, pure, Except.pure]
        · rfl

/-- How a value is removed, by its position `p` and the length `n`. -/
theorem removal_eq (ctx : Context) (t : Table) (position : Int64) {n : Nat} {p : Int}
    (hn : t.length ctx = n) (hp : removePosition n position = p) :
    t.removal ctx position =
      if position = 0 ∧ n = 0 then .ok (.inArray .nil t)
      else if p ≠ n ∧ (p < 1 ∨ (n : Int) + 1 < p) then .error (.badPosition (Int64.ofInt p))
      else if p ≤ n ∧ n ≤ t.array.size then
        .ok (.inArray (t.array.getD (p.toNat - 1) .nil) { t with
          array := (t.array.eraseIdxIfInBounds (p.toNat - 1)).insertIdxIfInBounds (n - 1) .nil })
      else .ok (.byKey p.toNat (n - p.toNat)) := by
  subst hn
  unfold removal
  simp only [removePosition] at hp
  simp only [hp]
  split
  · rfl
  · split
    · rfl
    · split <;> rfl

/-- Taking out the value at `n` and putting one in at `i` shifts the values between them up. -/
theorem getD_eraseIdx_insertIdx (array : Array Value) {i n : Nat} (hi : i ≤ n) (hn : n < array.size)
    (value : Value) :
    ((array.eraseIdxIfInBounds n).insertIdxIfInBounds i value).size = array.size ∧
      ∀ j, ((array.eraseIdxIfInBounds n).insertIdxIfInBounds i value).getD j .nil =
        if j = i then value
        else if i < j ∧ j ≤ n then array.getD (j - 1) .nil else array.getD j .nil := by
  have hsize : (array.eraseIdx n).size = array.size - 1 := Array.size_eraseIdx ..
  have heq : (array.eraseIdxIfInBounds n).insertIdxIfInBounds i value =
      (array.eraseIdx n).insertIdx i value (by omega) := by
    rw [Array.eraseIdxIfInBounds_eq, dif_pos hn, Array.insertIdxIfInBounds, dif_pos (by omega)]
  rw [heq]
  refine ⟨by rw [Array.size_insertIdx]; omega, fun j ↦ ?_⟩
  simp only [Array.getD_eq_getD_getElem?, Array.getElem?_insertIdx, Array.getElem?_eraseIdx]
  rcases Nat.lt_trichotomy j i with hlt | rfl | hgt
  · simp [hlt, hlt.ne, show ¬ i < j by omega, show j < n by omega]
  · simp [show j ≤ array.size - 1 by omega]
  · by_cases hle : j ≤ n
    · simp [hgt, hgt.ne', hle, show ¬ j < i by omega, show j - 1 < n by omega]
    · simp [hgt.ne', hle, show ¬ j < i by omega, show ¬ j - 1 < n by omega,
        show j - 1 + 1 = j by omega]

/-- Taking out the value at `i` and putting nil in at `n` shifts the values between them down. -/
theorem getD_eraseIdx_insertIdx_nil (array : Array Value) {i n : Nat} (hi : i ≤ n)
    (hn : n < array.size) :
    ((array.eraseIdxIfInBounds i).insertIdxIfInBounds n .nil).size = array.size ∧
      ∀ j, ((array.eraseIdxIfInBounds i).insertIdxIfInBounds n .nil).getD j .nil =
        if j = n then .nil
        else if i ≤ j ∧ j < n then array.getD (j + 1) .nil else array.getD j .nil := by
  have hi' : i < array.size := by omega
  have hsize : (array.eraseIdx i).size = array.size - 1 := Array.size_eraseIdx ..
  have heq : (array.eraseIdxIfInBounds i).insertIdxIfInBounds n .nil =
      (array.eraseIdx i).insertIdx n .nil (by omega) := by
    rw [Array.eraseIdxIfInBounds_eq, dif_pos hi', Array.insertIdxIfInBounds, dif_pos (by omega)]
  rw [heq]
  refine ⟨by rw [Array.size_insertIdx]; omega, fun j ↦ ?_⟩
  simp only [Array.getD_eq_getD_getElem?, Array.getElem?_insertIdx, Array.getElem?_eraseIdx]
  rcases Nat.lt_trichotomy j n with hlt | rfl | hgt
  · by_cases hle : i ≤ j
    · simp [hlt, hlt.ne, hle, show ¬ j < i by omega]
    · simp [hlt, hlt.ne, hle, show j < i by omega]
  · simp [show j ≤ array.size - 1 by omega]
  · simp [hgt.ne', show ¬ j < n by omega, show ¬ j - 1 < i by omega, show j - 1 + 1 = j by omega]

/-- Putting a value in shifts up the values from there on. -/
theorem getD_insertIdx (array : Array Value) {i : Nat} (hi : i ≤ array.size) (value : Value) :
    (array.insertIdxIfInBounds i value).size = array.size + 1 ∧
      ∀ j, (array.insertIdxIfInBounds i value).getD j .nil =
        if j = i then value
        else if i < j then array.getD (j - 1) .nil else array.getD j .nil := by
  have heq : array.insertIdxIfInBounds i value = array.insertIdx i value := by
    rw [Array.insertIdxIfInBounds, dif_pos hi]
  rw [heq]
  refine ⟨Array.size_insertIdx .., fun j ↦ ?_⟩
  simp only [Array.getD_eq_getD_getElem?, Array.getElem?_insertIdx]
  rcases Nat.lt_trichotomy j i with hlt | rfl | hgt
  · simp [hlt, hlt.ne, show ¬ i < j by omega]
  · simp [hi]
  · simp [hgt, hgt.ne', show ¬ j < i by omega]

/-- The values of an array have been named if those at its indices have. -/
theorem named_of_getD {fresh : Ref} {array : Array Value}
    (h : ∀ j, j < array.size → (array.getD j .nil).Named fresh) : ∀ v ∈ array, v.Named fresh := by
  intro v hv
  obtain ⟨j, hj, rfl⟩ := Array.mem_iff_getElem.mp hv
  simpa [Array.getD_eq_getD_getElem?, hj] using h j hj

namespace Sound

/-- The values of the array part have been named. -/
theorem getD_named (hs : t.Sound hash m) (j : Nat) : (t.array.getD j .nil).Named m.fresh := by
  rw [Array.getD_eq_getD_getElem?]
  by_cases hj : j < t.array.size
  · simpa [hj] using hs.array_named _ (Array.getElem_mem hj)
  · simp only [Array.getElem?_eq_none (Nat.le_of_not_lt hj), Option.getD_none]
    exact nofun

/-- A new value among those of the array part has been named, and so have they. -/
theorem named_ite (hs : t.Sound hash m) (hvalue : value.Named m.fresh) {p q : Prop} [Decidable p]
    [Decidable q] (i j : Nat) :
    Value.Named m.fresh
      (if p then value else if q then t.array.getD i .nil else t.array.getD j .nil) := by
  split
  · exact hvalue
  · split
    · exact hs.getD_named _
    · exact hs.getD_named _

/-- An array part of the same size keeps a table well formed. -/
theorem withArray_of_size (hs : t.Sound hash m) {array : Array Value}
    (hsize : array.size = t.array.size) (hnamed : ∀ v ∈ array, v.Named m.fresh) :
    Sound hash m { t with array } := by
  refine hs.withArray (fun h ↦ hsize.trans (hs.weak_values h)) hnamed ?_
  intro i key n hkey htarget hin
  have houtside := (hs.fits i).outside key n hkey htarget
  unfold arrayIndex? at houtside
  rw [if_pos (by omega)] at houtside
  cases houtside

/-- A list that fills the array part takes a value in its place, as long as no enumeration is on the
way: nothing is left of the key after it. -/
theorem withArray_insertIdx (hs : t.Sound hash m) (hhash : Value.RespectsEq hash)
    (hsize : t.array.size ≤ 2 ^ 31) (hmode : t.mode.values = false) (hanchored : t.anchored = false)
    (hlength : t.length (m.context hash) = t.array.size) {i : Nat} (hi : i ≤ t.array.size)
    (hnamed : value.Named m.fresh) :
    Sound hash m { t with array := t.array.insertIdxIfInBounds i value } := by
  obtain ⟨hsize', hget⟩ := getD_insertIdx t.array hi value
  refine hs.withArray (fun h ↦ absurd (h.symm.trans hmode) (by decide)) ?_ ?_
  · refine named_of_getD fun j _ ↦ ?_
    rw [hget]
    exact hs.named_ite hnamed _ _
  · intro j key k hkey htarget hin
    have houtside := (hs.fits j).outside key k hkey htarget
    -- Only the key after the array part can come into its bounds.
    have hk : k.toInt = t.array.size + 1 := by
      by_contra hne
      unfold arrayIndex? at houtside
      rw [if_pos (by omega)] at houtside
      cases houtside
    have hkeq : k = Int64.ofNat (t.array.size + 1) :=
      Int64.toInt_inj.mp (hk.trans (toInt_ofNat_succ (by omega)).symm)
    have habsent := hs.getInt_size_eq_nil hsize hlength
    rw [← hkeq, getInt, houtside] at habsent
    have hkey? := hs.key?_int hkey htarget
    -- Its slot is live, since there are no dead ones, and it has a value.
    cases hstate : t.arena.state j with
    | live handle v =>
      have hv : t.arena.value? m.alive j = some v.target := by
        rw [Arena.value?, hstate]
        show v.get m.alive = _
        rw [((hs.fits j).live handle v hstate).2.1, hmode, Handle.target_ofEntry]
        rfl
      have hget := hs.getFromHash_of_entry hhash (Value.stored_int k)
        (Arena.binding?_eq_some_iff.mpr ⟨hkey?, hv⟩) rfl
      exact ((hs.fits j).live handle v hstate).2.2.1 (hget.symm.trans habsent)
    | dead handle => exact hs.state_ne_dead hanchored j handle hstate
    | free =>
      rw [hstate] at hkey
      cases hkey

/-- A list that ends before a hole of the array part takes a value in its place. -/
theorem insert_beforeHole (hs : t.Sound hash m) (hnamed : value.Named m.fresh) {first n : Nat}
    (hfirst : 1 ≤ first) (hle : first ≤ n) (hlt : n < t.array.size) {array : Array Value}
    (harray : array = (t.array.eraseIdxIfInBounds n).insertIdxIfInBounds (first - 1) value) :
    Sound hash m { t with array } ∧ array.size = t.array.size ∧ ∀ k : Value, k.Stored →
      Table.get (m.context hash) { t with array } k =
        shiftedUp (t.get (m.context hash)) first (n + 1 - first) value k := by
  obtain ⟨hsize', hget⟩ := getD_eraseIdx_insertIdx t.array (i := first - 1) (by omega) hlt value
  rw [← harray] at hsize' hget
  refine ⟨hs.withArray_of_size hsize' (named_of_getD fun j _ ↦ ?_), hsize', fun k hk ↦ ?_⟩
  · rw [hget]
    exact hs.named_ite hnamed _ _
  · refine get_insertIdx _ hfirst (by omega) (by omega) (by omega) (by omega) (fun j _ ↦ ?_) hk
    rw [hget, if_congr (show j = first - 1 ↔ j + 1 = first by omega) rfl rfl,
      if_congr (show first - 1 < j ∧ j ≤ n ↔
        first < j + 1 ∧ j + 1 ≤ first + (n + 1 - first) by omega) rfl rfl]

/-- A list that fills the array part grows by a value, and then by what follows in the hash part. -/
theorem insert_grown (hs : t.Sound hash m) (hhash : Value.RespectsEq hash)
    (hsize : t.array.size ≤ 2 ^ 31) (hmode : t.mode.values = false) (hanchored : t.anchored = false)
    (hnamed : value.Named m.fresh) {first n : Nat} (hn : t.length (m.context hash) = n)
    (hfull : n = t.array.size) (hfirst : 1 ≤ first) (hle : first ≤ n) :
    ∃ u, absorbTail (m.context hash)
        { t with array := t.array.insertIdxIfInBounds (first - 1) value } = .ok u ∧
      u.Sound hash m ∧ Frame t u ∧ Extent (u.get (m.context hash)) (t.array.size + 1) u.array.size ∧
      ∀ k : Value, k.Stored → u.get (m.context hash) k =
        shiftedUp (t.get (m.context hash)) first (n + 1 - first) value k := by
  have hi : first - 1 ≤ t.array.size := by omega
  obtain ⟨hsize', hget⟩ := getD_insertIdx t.array hi value
  have hinserted := hs.withArray_insertIdx hhash hsize hmode hanchored (hn.trans hfull) hi hnamed
  have hlive := hs.live_le
  obtain ⟨u, hu, husound, hsame, hframe, -, hextent⟩ :=
    hinserted.absorb hhash hmode t.arena.live (by
      show (t.array.insertIdxIfInBounds _ value).size + t.arena.live + 1 < 2 ^ 63
      omega)
  have hend := (hextent (Nat.le_refl _)).congr fun k ↦ hsame _ (Value.stored_int k)
  refine ⟨u, hu, husound, ⟨hframe.metatable, hframe.mode, hframe.anchored, hframe.size⟩,
    hsize' ▸ hend, fun k hk ↦ ?_⟩
  rw [hsame k hk]
  refine get_insertIdx _ hfirst (by omega) (by omega) (by omega) (by omega) (fun j hj ↦ ?_) hk
  rw [hget, if_congr (show j = first - 1 ↔ j + 1 = first by omega) rfl rfl,
    if_congr (show first - 1 < j ↔
      first < j + 1 ∧ j + 1 ≤ first + (n + 1 - first) by omega) rfl rfl]

/-- How a value is inserted: it is refused, or put into the array part, or written key by key. The
array part takes it up to a hole, or grows by it and by what follows in the hash part. -/
theorem insertion_cases (hs : t.Sound hash m) (hhash : Value.RespectsEq hash)
    (hsize : t.array.size ≤ 2 ^ 31) (hnamed : value.Named m.fresh) (position : Int64) {n : Nat}
    (hn : t.length (m.context hash) = n) :
    ((insertPosition n position < 1 ∨ (n : Int) + 1 < insertPosition n position) ∧
      t.insertion (m.context hash) position value =
        .error (.badPosition (Int64.ofInt (insertPosition n position)))) ∨
    (∃ first count, 1 ≤ first ∧ first + count = n + 1 ∧
      (first : Int) = insertPosition n position ∧
      ((∃ u, t.insertion (m.context hash) position value = .ok (.inArray .nil u) ∧
          u.Sound hash m ∧ Frame t u ∧ (∀ k : Value, k.Stored →
            u.get (m.context hash) k = shiftedUp (t.get (m.context hash)) first count value k) ∧
          0 < count ∧ (n < t.array.size ∧ u.array.size = t.array.size ∨
            n = t.array.size ∧
              Extent (u.get (m.context hash)) (t.array.size + 1) u.array.size)) ∨
        t.insertion (m.context hash) position value = .ok (.byKey first count) ∧
          (t.mode.values = false → t.anchored = false → count = 0 ∨ t.array.size < n))) := by
  rw [insertion_eq (m.context hash) t position value hn rfl]
  generalize hp : insertPosition n position = p
  by_cases hbad : p < 1 ∨ (n : Int) + 1 < p
  · exact .inl ⟨hbad, if_pos hbad⟩
  · refine .inr ⟨p.toNat, n + 1 - p.toNat, by omega, by omega, by omega, ?_⟩
    rw [if_neg hbad]
    by_cases hend : p = n + 1
    · have hcount : n + 1 - p.toNat = 0 := by omega
      rw [if_pos hend, hcount]
      exact .inr ⟨rfl, fun _ _ ↦ .inl rfl⟩
    · have hfirst : 1 ≤ p.toNat := by omega
      have hle : p.toNat ≤ n := by omega
      rw [if_neg hend]
      by_cases hlt : n < t.array.size
      · obtain ⟨hsound, hsize', hvalues⟩ := hs.insert_beforeHole hnamed hfirst hle hlt rfl
        exact .inl ⟨_, if_pos hlt, hsound, ⟨rfl, rfl, rfl, rfl⟩, hvalues, by omega,
          .inl ⟨hlt, hsize'⟩⟩
      · rw [if_neg hlt]
        split
        · rename_i hcond
          simp only [Bool.and_eq_true, Bool.not_eq_true', decide_eq_true_eq] at hcond
          obtain ⟨⟨hfull, hmode⟩, hanchored⟩ := hcond
          obtain ⟨u, hu, husound, hframe, hextent, hvalues⟩ := hs.insert_grown hhash hsize hmode
            hanchored hnamed hn hfull hfirst hle
          refine .inl ⟨u, ?_, husound, hframe, hvalues, by omega, .inr ⟨hfull, hextent⟩⟩
          rw [hu]
          rfl
        · rename_i hcond
          refine .inr ⟨rfl, fun hmode hanchored ↦ .inr ?_⟩
          have hne : n ≠ t.array.size := fun hfull ↦ hcond (by simp [hfull, hmode, hanchored])
          omega

/-- An insertion that is refused is one at a position outside the list. -/
theorem insertion_error (hs : t.Sound hash m) (hhash : Value.RespectsEq hash)
    (hsize : t.array.size ≤ 2 ^ 31) (hnamed : value.Named m.fresh) {position : Int64} {n : Nat}
    (hn : t.length (m.context hash) = n) {e : Error}
    (h : t.insertion (m.context hash) position value = .error e) :
    (insertPosition n position < 1 ∨ (n : Int) + 1 < insertPosition n position) ∧
      e = .badPosition (Int64.ofInt (insertPosition n position)) := by
  obtain ⟨hbad, herror⟩ | ⟨first, count, -, -, -, ⟨u, hu, -⟩ | ⟨hkey, -⟩⟩ :=
    hs.insertion_cases hhash hsize hnamed position hn
  · cases h.symm.trans herror
    exact ⟨hbad, rfl⟩
  · cases h.symm.trans hu
  · cases h.symm.trans hkey

/-- What an insertion into the array part leaves. -/
theorem insertion_inArray (hs : t.Sound hash m) (hhash : Value.RespectsEq hash)
    (hsize : t.array.size ≤ 2 ^ 31) (hnamed : value.Named m.fresh) {position : Int64} {n : Nat}
    (hn : t.length (m.context hash) = n) {removed : Value} {u : Table}
    (h : t.insertion (m.context hash) position value = .ok (.inArray removed u)) :
    u.Sound hash m ∧ Frame t u ∧ ∃ first count, 1 ≤ first ∧ first + count = n + 1 ∧
      (first : Int) = insertPosition n position ∧ 0 < count ∧
      (∀ k : Value, k.Stored →
        u.get (m.context hash) k = shiftedUp (t.get (m.context hash)) first count value k) ∧
      (n < t.array.size ∧ u.array.size = t.array.size ∨
        n = t.array.size ∧ Extent (u.get (m.context hash)) (t.array.size + 1) u.array.size) := by
  obtain ⟨-, herror⟩ | ⟨first, count, hfirst, hsum, hposition,
      ⟨w, hw, hsound, hframe, hvalues, hcount, hend⟩ | ⟨hkey, -⟩⟩ :=
    hs.insertion_cases hhash hsize hnamed position hn
  · cases h.symm.trans herror
  · cases h.symm.trans hw
    exact ⟨hsound, hframe, first, count, hfirst, hsum, hposition, hcount, hvalues, hend⟩
  · cases h.symm.trans hkey

/-- Which keys an insertion is made by, if it goes key by key. -/
theorem insertion_byKey (hs : t.Sound hash m) (hhash : Value.RespectsEq hash)
    (hsize : t.array.size ≤ 2 ^ 31) (hnamed : value.Named m.fresh) {position : Int64} {n : Nat}
    (hn : t.length (m.context hash) = n) {first count : Nat}
    (h : t.insertion (m.context hash) position value = .ok (.byKey first count)) :
    1 ≤ first ∧ first + count = n + 1 ∧ (first : Int) = insertPosition n position := by
  obtain ⟨-, herror⟩ | ⟨first, count, hfirst, hsum, hposition, ⟨u, hu, -⟩ | ⟨hkey, -⟩⟩ :=
    hs.insertion_cases hhash hsize hnamed position hn
  · cases h.symm.trans herror
  · cases h.symm.trans hu
  · cases h.symm.trans hkey
    exact ⟨hfirst, hsum, hposition⟩

/-- A list within the array part gives up a value. -/
theorem remove_inArray (hs : t.Sound hash m) (hsize : t.array.size ≤ 2 ^ 31) {first n : Nat}
    (hfirst : 1 ≤ first) (hle : first ≤ n) (hn : n ≤ t.array.size) {array : Array Value}
    (harray : array = (t.array.eraseIdxIfInBounds (first - 1)).insertIdxIfInBounds (n - 1) .nil) :
    Sound hash m { t with array } ∧ array.size = t.array.size ∧ ∀ k : Value, k.Stored →
      Table.get (m.context hash) { t with array } k =
        shiftedDown (t.get (m.context hash)) first (n - first) k := by
  obtain ⟨hsize', hget⟩ := getD_eraseIdx_insertIdx_nil t.array (i := first - 1) (n := n - 1)
    (by omega) (by omega)
  rw [← harray] at hsize' hget
  have hnil : Value.nil.Named m.fresh := nofun
  refine ⟨hs.withArray_of_size hsize' (named_of_getD fun j _ ↦ ?_), hsize', fun k hk ↦ ?_⟩
  · rw [hget]
    exact hs.named_ite hnil _ _
  · refine get_eraseIdx _ hfirst (by omega) hsize' (by omega) (fun j _ ↦ ?_) hk
    rw [hget, if_congr (show j = n - 1 ↔ j + 1 = first + (n - first) by omega) rfl rfl,
      if_congr (show first - 1 ≤ j ∧ j < n - 1 ↔
        first ≤ j + 1 ∧ j + 1 < first + (n - first) by omega) rfl rfl]

/-- How a value is removed: it is refused, or there is nothing to remove, or it is taken out of the
array part, or out of the keys one by one. -/
theorem removal_cases (hs : t.Sound hash m) (hsize : t.array.size ≤ 2 ^ 31) (position : Int64)
    {n : Nat} (hn : t.length (m.context hash) = n) :
    ((removePosition n position ≠ n ∧
        (removePosition n position < 1 ∨ (n : Int) + 1 < removePosition n position)) ∧
      t.removal (m.context hash) position =
        .error (.badPosition (Int64.ofInt (removePosition n position)))) ∨
    (position = 0 ∧ n = 0 ∧ t.removal (m.context hash) position = .ok (.inArray .nil t)) ∨
    (∃ first count, 1 ≤ first ∧ (first + count = n ∨ first = n + 1 ∧ count = 0) ∧
      (first : Int) = removePosition n position ∧
      ((∃ u, t.removal (m.context hash) position =
            .ok (.inArray (t.get (m.context hash) (.int (Int64.ofNat first))) u) ∧
          u.Sound hash m ∧ Frame t u ∧ (∀ k : Value, k.Stored →
            u.get (m.context hash) k = shiftedDown (t.get (m.context hash)) first count k) ∧
          (first ≤ n ∧ n ≤ t.array.size) ∧ u.array.size = t.array.size) ∨
        t.removal (m.context hash) position = .ok (.byKey first count) ∧
          ¬ (first ≤ n ∧ n ≤ t.array.size))) := by
  rw [removal_eq (m.context hash) t position hn rfl]
  by_cases hnone : position = 0 ∧ n = 0
  · exact .inr (.inl ⟨hnone.1, hnone.2, if_pos hnone⟩)
  · rw [if_neg hnone]
    have hpos : removePosition n position = n → 1 ≤ n := by
      intro hp
      by_contra hzero
      have hn0 : n = 0 := by omega
      refine hnone ⟨?_, hn0⟩
      by_contra hne
      rw [removePosition, if_neg hne, hn0] at hp
      exact hne (Int64.toInt_inj.mp hp)
    generalize hp : removePosition n position = p at hpos
    by_cases hbad : p ≠ n ∧ (p < 1 ∨ (n : Int) + 1 < p)
    · exact .inl ⟨hbad, if_pos hbad⟩
    · refine .inr (.inr ⟨p.toNat, n - p.toNat, by omega, by omega, by omega, ?_⟩)
      rw [if_neg hbad]
      by_cases hin : p ≤ n ∧ n ≤ t.array.size
      · have hfirst : 1 ≤ p.toNat := by omega
        have hle : p.toNat ≤ n := by omega
        obtain ⟨hsound, hsize', hvalues⟩ := hs.remove_inArray hsize hfirst hle hin.2 rfl
        refine .inl ⟨_, ?_, hsound, ⟨rfl, rfl, rfl, rfl⟩, hvalues, by omega, hsize'⟩
        have hpos : (Int64.ofNat p.toNat).toInt = p := by
          rw [Int64.toInt_ofNat_of_lt (by omega)]
          omega
        rw [if_pos hin, get_int, hpos, if_pos (by omega)]
      · exact .inr ⟨if_neg hin, by omega⟩

/-- A removal that is refused is one at a position outside the list. -/
theorem removal_error (hs : t.Sound hash m) (hsize : t.array.size ≤ 2 ^ 31) {position : Int64}
    {n : Nat} (hn : t.length (m.context hash) = n) {e : Error}
    (h : t.removal (m.context hash) position = .error e) :
    (removePosition n position ≠ n ∧
        (removePosition n position < 1 ∨ (n : Int) + 1 < removePosition n position)) ∧
      e = .badPosition (Int64.ofInt (removePosition n position)) := by
  obtain ⟨hbad, herror⟩ | ⟨-, -, hnone⟩ | ⟨first, count, -, -, -, ⟨u, hu, -⟩ | ⟨hkey, -⟩⟩ :=
    hs.removal_cases hsize position hn
  · cases h.symm.trans herror
    exact ⟨hbad, rfl⟩
  · cases h.symm.trans hnone
  · cases h.symm.trans hu
  · cases h.symm.trans hkey

/-- What a removal from the array part leaves: the table, if its list is empty, or the values after
the removed one a key lower. -/
theorem removal_inArray (hs : t.Sound hash m) (hsize : t.array.size ≤ 2 ^ 31) {position : Int64}
    {n : Nat} (hn : t.length (m.context hash) = n) {removed : Value} {u : Table}
    (h : t.removal (m.context hash) position = .ok (.inArray removed u)) :
    u.Sound hash m ∧ Frame t u ∧ u.array.size = t.array.size ∧
      (position = 0 ∧ n = 0 ∧ removed = .nil ∧ u = t ∨
        ∃ first count, 1 ≤ first ∧ (first + count = n ∨ first = n + 1 ∧ count = 0) ∧
          (first : Int) = removePosition n position ∧
          removed = t.get (m.context hash) (.int (Int64.ofNat first)) ∧
          ∀ k : Value, k.Stored →
            u.get (m.context hash) k = shiftedDown (t.get (m.context hash)) first count k) := by
  obtain ⟨-, herror⟩ | ⟨hposition, hzero, hnone⟩ | ⟨first, count, hfirst, hsum, hposition,
      ⟨w, hw, hsound, hframe, hvalues, -, hsize'⟩ | ⟨hkey, -⟩⟩ :=
    hs.removal_cases hsize position hn
  · cases h.symm.trans herror
  · cases h.symm.trans hnone
    exact ⟨hs, .refl t, rfl, .inl ⟨hposition, hzero, rfl, rfl⟩⟩
  · cases h.symm.trans hw
    exact ⟨hsound, hframe, hsize', .inr ⟨first, count, hfirst, hsum, hposition, rfl, hvalues⟩⟩
  · cases h.symm.trans hkey

/-- Which keys a removal is made by, if it goes key by key. -/
theorem removal_byKey (hs : t.Sound hash m) (hsize : t.array.size ≤ 2 ^ 31) {position : Int64}
    {n : Nat} (hn : t.length (m.context hash) = n) {first count : Nat}
    (h : t.removal (m.context hash) position = .ok (.byKey first count)) :
    1 ≤ first ∧ (first + count = n ∨ first = n + 1 ∧ count = 0) ∧
      (first : Int) = removePosition n position := by
  obtain ⟨-, herror⟩ | ⟨-, -, hnone⟩ | ⟨first, count, hfirst, hsum, hposition, ⟨u, hu, -⟩ |
      ⟨hkey, -⟩⟩ :=
    hs.removal_cases hsize position hn
  · cases h.symm.trans herror
  · cases h.symm.trans hnone
  · cases h.symm.trans hu
  · cases h.symm.trans hkey
    exact ⟨hfirst, hsum, hposition⟩

end Sound

end LuaData.Table
