import LuaData.Proofs.ListTables

/-!
# The length of a table in machine words

`Table.length` computes with naturals. `Table.wordLength` makes the same searches with words of 64
bits and keys that are signed words: it has no answer where a difference, a sum, a double or a key
does not fit, and it counts keys one by one without a bound on their number. It always has an
answer, which is the length (`Sound.wordLength_eq`). `Reaches.length_is_border` says what the
length is.
-/

namespace LuaData.Table

variable {hash : Value → UInt64} {hint : Nat} {m : Moment} {t : Table}

/-- Halve the gap between two words. -/
def bisectWord (present : Nat → Bool) (low high : Nat) : Option Nat :=
  if high < low then none
  else if 1 < high - low then
    if low + high < 2 ^ 64 then
      let middle := (low + high) / 2
      if middle < 2 ^ 63 then
        if present middle then bisectWord present middle high else bisectWord present low middle
      else none
    else none
  else some low
termination_by high - low

/-- The number before the first absent key from `k` on. -/
def countWord (present : Nat → Bool) (k : Nat) : Option Nat :=
  if k < 2 ^ 63 then
    if present k then countWord present (k + 1) else some (k - 1)
  else none
termination_by 2 ^ 63 - k

/-- Double a key while it is present, and halve the gap that is found. Where the next double is no
signed word, the keys are counted instead. -/
def gallopWord (present : Nat → Bool) (low high : Nat) : Option Nat :=
  if high < 2 ^ 63 then
    if present high then
      if (2 ^ 63 - 1) / 2 < high then countWord present 1
      else if 0 < high ∧ 2 * high < 2 ^ 64 then gallopWord present high (2 * high)
      else none
    else bisectWord present low high
  else none
termination_by 2 ^ 63 - high

/-- The length of a table, computed with words. -/
def wordLength (ctx : Context) (t : Table) : Option Nat :=
  if 0 < t.array.size && (t.array.getD (t.array.size - 1) .nil).isNil then
    bisectWord (fun n ↦ !(t.array.getD (n - 1) .nil).isNil) 0 t.array.size
  else if t.arena.live = 0 then some t.array.size
  else if t.array.size + 1 < 2 ^ 64 then
    gallopWord (t.hasInt ctx) t.array.size (t.array.size + 1)
  else none

/-- Halving a gap stays within the words. -/
theorem bisectWord_eq (present : Nat → Bool) (low high : Nat) (hle : low ≤ high)
    (hhigh : high < 2 ^ 63) : bisectWord present low high = some (bisect present low high) := by
  fun_induction bisect present low high with
  | case1 low high hgap middle hpresent ih =>
    rw [bisectWord, if_neg (Nat.not_lt.mpr hle), if_pos hgap, if_pos (by omega)]
    dsimp only
    rw [if_pos (by omega), if_pos hpresent]
    exact ih (by omega) hhigh
  | case2 low high hgap middle habsent ih =>
    rw [bisectWord, if_neg (Nat.not_lt.mpr hle), if_pos hgap, if_pos (by omega)]
    dsimp only
    rw [if_pos (by omega), if_neg habsent]
    exact ih (by omega) (by omega)
  | case3 low high hgap => rw [bisectWord, if_neg (Nat.not_lt.mpr hle), if_neg hgap]

/-- Counting keys one by one ends where the bounded count does, if that has not reached its
bound. -/
theorem countWord_eq (present : Nat → Bool) (k fuel : Nat) (hpos : 0 < k)
    (hfuel : countFrom present k fuel < fuel) (hlt : k + countFrom present k fuel < 2 ^ 63) :
    countWord present k = some (k + countFrom present k fuel - 1) := by
  induction fuel generalizing k with
  | zero => exact absurd hfuel (Nat.not_lt_zero _)
  | succ fuel ih =>
    rw [countWord, if_pos (by omega)]
    unfold countFrom at hfuel hlt ⊢
    split
    · rename_i hpresent
      rw [if_pos hpresent] at hfuel hlt
      rw [ih (k + 1) (Nat.succ_pos k) (by omega) (by omega)]
      congr 1
      omega
    · rfl

/-- Doubling a key stays within the words and finds the gap, or counting takes over. -/
theorem gallopWord_eq (present : Nat → Bool) (low high : Nat) (hlt : low < high)
    (hhigh : high < 2 ^ 63) :
    gallopWord present low high =
      match gallop present low high with
      | some (l, h) => some (bisect present l h)
      | none => countWord present 1 := by
  fun_induction gallop present low high with
  | case1 low high hpresent hbound ih =>
    rw [gallopWord, if_pos hhigh, if_pos hpresent, if_neg (by omega), if_pos (by omega)]
    exact ih (by omega) (by omega)
  | case2 low high hpresent hbound =>
    rw [gallopWord, if_pos hhigh, if_pos hpresent, if_pos (by omega)]
  | case3 low high habsent =>
    rw [gallopWord, if_pos hhigh, if_neg habsent, bisectWord_eq present low high hlt.le hhigh]

/-- Nothing overflows in the search for the length of a table. -/
theorem Sound.wordLength_eq (hs : t.Sound hash m) (hhash : Value.RespectsEq hash)
    (hsize : t.array.size ≤ 2 ^ 62) :
    t.wordLength (m.context hash) = some (t.length (m.context hash)) := by
  have hslots := hs.size_le_names
  unfold wordLength Table.length
  split
  · exact bisectWord_eq _ _ _ (Nat.zero_le _) (by omega)
  · split
    · rfl
    · rw [if_pos (by omega),
        gallopWord_eq (t.hasInt (m.context hash)) t.array.size (t.array.size + 1) (by omega)
          (by omega), hashBorder]
      cases gallop (t.hasInt (m.context hash)) t.array.size (t.array.size + 1) with
      | some gap => rfl
      | none =>
        have hlt := hs.countFrom_lt hhash hsize
        dsimp only
        rw [countWord_eq _ 1 _ Nat.one_pos hlt (by omega), Nat.add_sub_cancel_left]

/-- The length of a table that is reached is a border, and the next key is an integer too. No
search for it overflows. If the positive keys are `1, 2, …, count`, it is their number. -/
theorem Reaches.length_is_border (hhash : Value.RespectsEq hash) (h : Reaches hash hint m t) :
    ((t.length (m.context hash) = 0 ∧ t.getInt (m.context hash) 1 = .nil) ∨
      (1 ≤ t.length (m.context hash) ∧
        t.getInt (m.context hash) (Int64.ofNat (t.length (m.context hash))) ≠ .nil ∧
        t.getInt (m.context hash) (Int64.ofNat (t.length (m.context hash) + 1)) = .nil)) ∧
    t.length (m.context hash) + 1 ≤ 2 ^ 63 - 1 ∧
    t.wordLength (m.context hash) = some (t.length (m.context hash)) ∧
    ∀ count : Nat,
      (∀ k : Int64, 0 < k.toInt → (t.getInt (m.context hash) k ≠ .nil ↔ k.toInt ≤ count)) →
      t.length (m.context hash) = count := by
  have hs := (h.sound hhash).1
  have hsize : t.array.size ≤ 2 ^ 62 := (h.size_le hhash).trans (by decide)
  obtain ⟨hborder, hlt⟩ := hs.isBorder_length hhash hsize
  have hnext := Sound.getInt_eq_nil_of_hasInt hborder.next
  refine ⟨?_, Nat.le_sub_one_of_lt hlt, hs.wordLength_eq hhash hsize, fun count hrun ↦ ?_⟩
  · generalize t.length (m.context hash) = n at hborder hnext
    rcases Nat.eq_zero_or_pos n with rfl | hpos
    · exact .inl ⟨rfl, hnext⟩
    · refine .inr ⟨hpos, ?_, hnext⟩
      exact hasInt_eq_true_iff.mp (hborder.last.resolve_left (Nat.ne_of_gt hpos))
  · refine hborder.eq_of_run hlt fun k hpos hk ↦ ?_
    have hkey : (Int64.ofNat k).toInt = k := Int64.toInt_ofNat_of_lt hk
    have hiff := hrun (Int64.ofNat k) (by omega)
    rw [hkey] at hiff
    exact hasInt_eq_true_iff.trans (hiff.trans Int.ofNat_le)

/-- A table with the key two set before the key one, with a gap after them and with the greatest
integer as a key. -/
theorem length_is_border_of_gap :
    ∃ t, Reaches Value.hash 4 .origin t ∧
      t.getInt (Moment.origin.context Value.hash) 4 ≠ .nil ∧
      t.getInt (Moment.origin.context Value.hash) Int64.maxValue ≠ .nil ∧
      t.length (Moment.origin.context Value.hash) = 2 ∧
      t.wordLength (Moment.origin.context Value.hash) = some 2 ∧
      t.getInt (Moment.origin.context Value.hash) 2 ≠ .nil ∧
      t.getInt (Moment.origin.context Value.hash) 3 = .nil := by
  let write (t : Table) (k : Int64) : Table :=
    (t.store Value.hash (.still .origin) (.int k) (.bool true)).2
  let t := write (write (write (write (withHashSize 4) 2) 1) 4) Int64.maxValue
  have ht : Reaches Value.hash 4 .origin t := by
    refine (((((Reaches.new .origin).storeInline ?_ rfl rfl).storeInline ?_ rfl rfl).storeInline ?_
      rfl rfl).storeInline ?_ rfl rfl)
    all_goals decide +kernel
  have hlength : t.length (Moment.origin.context Value.hash) = 2 := by decide +kernel
  obtain ⟨hborder, -, hword, -⟩ := ht.length_is_border Value.rawEq_hash
  rw [hlength] at hborder hword
  refine ⟨t, ht, by decide +kernel, by decide +kernel, hlength, hword, ?_⟩
  rcases hborder with ⟨hzero, -⟩ | ⟨-, hlast, hnext⟩
  · cases hzero
  · exact ⟨hlast, hnext⟩

end LuaData.Table
