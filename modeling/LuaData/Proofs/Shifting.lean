import LuaData.Proofs.Copying
import LuaData.Proofs.Refinement
import LuaData.Proofs.Searching

/-!
# Insertions and removals on the way

An insertion or a removal that goes key by key can be overtaken by releases. `Inserting` and
`Removing` are such runs, and `Inserting.shifts` and `Removing.shifts` say what they leave: the
values that the old table would show at the end, shifted. What a table with weak handles loses on
the way is lost wherever it has been shifted to (`survivors`).
-/

namespace LuaData.Table

variable {hash : Value → UInt64} {m n : Moment} {t u : Table} {value : Value} {position : Int64}
  {border : Nat}

/-! ## On the way -/

/-- Inserting a value, while cells may be released before, within and after each write. -/
inductive Inserting (hash : Value → UInt64) (m : Moment) (t : Table) (position : Int64)
    (value : Value) : Except Error Unit → Moment → Table → Prop
  | refused {e : Error} (h : t.insertion (m.context hash) position value = .error e) :
      Inserting hash m t position value (.error e) m t
  | inArray {removed : Value} {u : Table}
      (h : t.insertion (m.context hash) position value = .ok (.inArray removed u)) :
      Inserting hash m t position value (.ok ()) m u
  | stopped {first count : Nat} {n : Moment} {u : Table} {e : Error}
      (h : t.insertion (m.context hash) position value = .ok (.byKey first count))
      (hcopying : Copying hash (copiesUp first count) m t (.error e) n u) :
      Inserting hash m t position value (.error e) n u
  | byKey {first count : Nat} {now n : Moment} {c : Course} {u w : Table} {r : Except Error Unit}
      (h : t.insertion (m.context hash) position value = .ok (.byKey first count))
      (hcopying : Copying hash (copiesUp first count) m t (.ok ()) now u) (hle : now ≤ c.clear)
      (hstore : u.storeKey hash c (.int (Int64.ofNat first)) value = (r, w)) (hlast : c.last ≤ n) :
      Inserting hash m t position value r n w

/-- Removing a value, while cells may be released before, within and after each write. -/
inductive Removing (hash : Value → UInt64) (m : Moment) (t : Table) (position : Int64) :
    Except Error Value → Moment → Table → Prop
  | refused {e : Error} (h : t.removal (m.context hash) position = .error e) :
      Removing hash m t position (.error e) m t
  | inArray {removed : Value} {u : Table}
      (h : t.removal (m.context hash) position = .ok (.inArray removed u)) :
      Removing hash m t position (.ok removed) m u
  | stopped {first count : Nat} {n : Moment} {u : Table} {e : Error}
      (h : t.removal (m.context hash) position = .ok (.byKey first count))
      (hcopying : Copying hash (copiesDown first count) m t (.error e) n u) :
      Removing hash m t position (.error e) n u
  | byKey {first count : Nat} {now n : Moment} {c : Course} {u w : Table} {r : Except Error Unit}
      (h : t.removal (m.context hash) position = .ok (.byKey first count))
      (hcopying : Copying hash (copiesDown first count) m t (.ok ()) now u) (hle : now ≤ c.clear)
      (hstore : u.storeKey hash c (.int (Int64.ofNat (first + count))) .nil = (r, w))
      (hlast : c.last ≤ n) :
      Removing hash m t position (r.map fun _ ↦ t.getInt (m.context hash) (Int64.ofNat first)) n w

/-- A value that is there is kept under an integer. -/
theorem kept_int_of_present {alive : Ref → Bool} (mode : WeakMode) (i : Int64)
    (h : value.present alive = true) : Kept alive mode (.int i, value) :=
  ⟨Handle.get_ofEntry_inline rfl _, get_ofEntry_of_present h _⟩

/-- An insertion at a position of the list shifts what the table shows at the end, or the table is
unfit for it. -/
theorem Inserting.shifts {r : Except Error Unit} (h : Inserting hash m t position value r n u)
    (hs : t.Sound hash m) (hhash : Value.RespectsEq hash) (hsize : t.array.size ≤ 2 ^ 31)
    (hnamed : value.Named m.fresh) (hborder : t.length (m.context hash) = border)
    (hpos : 1 ≤ insertPosition border position)
    (hle : insertPosition border position ≤ border + 1) (hpresent : value.present n.alive = true) :
    (r = .ok () ∧ ∀ key : Value, key.Stored → u.get (n.context hash) key =
      shiftedUp (t.get (n.context hash)) (insertPosition border position).toNat
        (border + 1 - (insertPosition border position).toNat) value key) ∨
    ∃ e, r = .error e ∧ t.Unfit e := by
  have hlength := hs.length_lt hsize (m.context hash)
  rw [hborder] at hlength
  -- The values that are shifted are those from the position on.
  have hcount : ∀ {first count : Nat}, first + count = border + 1 →
      (first : Int) = insertPosition border position →
      (insertPosition border position).toNat = first ∧ border + 1 - first = count := by
    omega
  cases h with
  | refused h =>
    obtain ⟨hbad, -⟩ := hs.insertion_error hhash hsize hnamed hborder h
    omega
  | inArray h =>
    obtain ⟨-, -, first, count, -, hsum, hposition, -, hget, -⟩ :=
      hs.insertion_inArray hhash hsize hnamed hborder h
    obtain ⟨hfirst, hleft⟩ := hcount hsum hposition
    rw [hfirst, hleft]
    exact .inl ⟨rfl, hget⟩
  | stopped h hcopying =>
    obtain ⟨hfirst, hsum, -⟩ := hs.insertion_byKey hhash hsize hnamed hborder h
    have hcopied := (hcopying.up hs hhash hfirst (by omega) (.inl hsize)).1
    exact .inr ⟨_, rfl, hcopied.unfit _ rfl⟩
  | byKey h hcopying hclear hstore hlast =>
    obtain ⟨hone, hsum, hposition⟩ := hs.insertion_byKey hhash hsize hnamed hborder h
    obtain ⟨hfirst, hleft⟩ := hcount hsum hposition
    obtain ⟨hcopied, htakes⟩ := hcopying.up hs hhash hone (by omega) (.inl hsize)
    rw [hfirst, hleft]
    rcases hcopied.store_cases hs hhash (by omega) hnamed hclear hlast (htakes rfl) (by omega)
      hstore with ⟨rfl, M, hM, hshows⟩ | hunfit
    · refine .inl ⟨rfl, fun key hkey ↦ ?_⟩
      rw [hshows key hkey, if_pos (kept_int_of_present _ _ hpresent),
        Contents.read_copyAll_copiesUp _ _ _ (by omega), shiftedUp_content hM _ _ _ hkey]
    · exact .inr hunfit

/-- A removal at a position of the list shifts what the table shows at the end, or the table is
unfit for it. -/
theorem Removing.shifts {r : Except Error Value} (h : Removing hash m t position r n u)
    (hs : t.Sound hash m) (hhash : Value.RespectsEq hash) (hsize : t.array.size ≤ 2 ^ 31)
    (hborder : t.length (m.context hash) = border) (hpos : 1 ≤ removePosition border position)
    (hle : removePosition border position ≤ border + 1)
    (hlimit : border ≤ 2 ^ 31 ∨ 2 ^ 31 + 1 < removePosition border position) :
    (r = .ok (t.get (m.context hash) (.int (Int64.ofInt (removePosition border position)))) ∧
      ∀ key : Value, key.Stored → u.get (n.context hash) key =
        shiftedDown (t.get (n.context hash)) (removePosition border position).toNat
          (border - (removePosition border position).toNat) key) ∨
    ∃ e, r = .error e ∧ t.Unfit e := by
  have hlength := hs.length_lt hsize (m.context hash)
  have habsent := Sound.getInt_eq_nil_of_hasInt
    (hs.isBorder_length hhash (hsize.trans (by decide))).1.next
  rw [hborder] at hlength habsent
  -- The values that are shifted are those after the position.
  have hcount : ∀ {first count : Nat},
      (first + count = border ∨ first = border + 1 ∧ count = 0) →
      (first : Int) = removePosition border position →
      (removePosition border position).toNat = first ∧ border - first = count := by
    omega
  have hspared : ∀ {first : Nat}, (first : Int) = removePosition border position →
      t.Spared hash m first border := by
    intro first hposition
    rw [← hposition] at hlimit
    exact hlimit.symm.imp (by exact_mod_cast ·) fun hlast ↦ ⟨hlast, habsent⟩
  cases h with
  | refused h =>
    obtain ⟨⟨hne, hbad⟩, -⟩ := hs.removal_error hsize hborder h
    omega
  | inArray h =>
    obtain ⟨-, -, -, ⟨rfl, rfl, -⟩ | ⟨first, count, -, hsum, hposition, rfl, hget⟩⟩ :=
      hs.removal_inArray hsize hborder h
    · rw [removePosition, if_pos rfl] at hpos
      cases hpos
    · obtain ⟨hfirst, hleft⟩ := hcount hsum hposition
      rw [hfirst, hleft, ← hposition]
      exact .inl ⟨rfl, hget⟩
  | stopped h hcopying =>
    obtain ⟨-, hsum, hposition⟩ := hs.removal_byKey hsize hborder h
    have hcopied := (hcopying.down border hs hhash (by omega) (by omega) hsize
      (hspared hposition)).1
    exact .inr ⟨_, rfl, hcopied.unfit _ rfl⟩
  | @byKey first count now _ c w _ r h hcopying hclear hstore hlast =>
    obtain ⟨-, hsum, hposition⟩ := hs.removal_byKey hsize hborder h
    obtain ⟨hfirst, hleft⟩ := hcount hsum hposition
    obtain ⟨hcopied, hwithin⟩ :=
      hcopying.down border hs hhash (by omega) (by omega) hsize (hspared hposition)
    have hnil : Value.nil.Named m.fresh := fun _ hr ↦ by cases hr
    have hend : first + count < 2 ^ 63 := by omega
    rw [hfirst, hleft, ← hposition]
    rcases hcopied.store_cases hs hhash (by omega) hnil hclear hlast (.inl (hwithin rfl)) hend
      hstore with ⟨rfl, M, hM, hshows⟩ | ⟨e, rfl, hunfit⟩
    · refine .inl ⟨rfl, fun key hkey ↦ ?_⟩
      rw [hshows key hkey, ite_self, Contents.read_copyAll_copiesDown _ _ _ hend,
        shiftedDown_content hM _ _ hkey]
    · exact .inr ⟨e, rfl, hunfit⟩

/-! ## The values that are left -/

/-- What the keys of a table have left of their values at a later moment: an entry is lost once the
table holds its key or its value weakly and that has been released. -/
def survivors (before after : Context) (t : Table) (key : Value) : Value :=
  if Kept after.alive t.mode (key, t.get before key) then t.get before key else .nil

/-- An entry survives in a table without weak handles, and as long as its key and its value are
there. -/
theorem survivors_eq_get {before after : Context} {key : Value}
    (h : t.mode = .strong ∨
      key.present after.alive = true ∧ (t.get before key).present after.alive = true) :
    t.survivors before after key = t.get before key := by
  refine if_pos ?_
  rcases h with hstrong | ⟨hkey, hvalue⟩
  · exact hstrong ▸ kept_strong _ _
  · exact ⟨get_ofEntry_of_present hkey _, get_ofEntry_of_present hvalue _⟩

/-- Values that agree on the keys of tables are shifted alike. -/
theorem shiftedUp_congr {values values' : Value → Value}
    (h : ∀ k : Value, k.Stored → values k = values' k) (first count : Nat) (value : Value)
    {key : Value} (hkey : key.Stored) :
    shiftedUp values first count value key = shiftedUp values' first count value key := by
  by_cases hint : ∃ k, key = .int k
  · obtain ⟨k, rfl⟩ := hint
    simp only [shiftedUp, h _ (Value.stored_int _)]
  · have hint' : ∀ k, key ≠ .int k := fun k hk ↦ hint ⟨k, hk⟩
    rw [shiftedUp_of_not_int _ _ _ _ hint', shiftedUp_of_not_int _ _ _ _ hint', h _ hkey]

theorem shiftedDown_congr {values values' : Value → Value}
    (h : ∀ k : Value, k.Stored → values k = values' k) (first count : Nat) {key : Value}
    (hkey : key.Stored) :
    shiftedDown values first count key = shiftedDown values' first count key := by
  by_cases hint : ∃ k, key = .int k
  · obtain ⟨k, rfl⟩ := hint
    simp only [shiftedDown, h _ (Value.stored_int _)]
  · have hint' : ∀ k, key ≠ .int k := fun k hk ↦ hint ⟨k, hk⟩
    rw [shiftedDown_of_not_int _ _ _ hint', shiftedDown_of_not_int _ _ _ hint', h _ hkey]

/-! ## A table alone -/

/-- The insertion of a table alone is one in which nothing is released. -/
theorem inserting_insert (hash : Value → UInt64) (m : Moment) (t : Table) (position : Int64)
    (value : Value) :
    ∃ r u, Inserting hash m t position value r m u ∧
      t.insert (m.context hash) position value = r.map fun _ ↦ u := by
  unfold Table.insert
  cases h : t.insertion (m.context hash) position value with
  | error e => exact ⟨_, t, .refused h, rfl⟩
  | ok shift =>
    cases shift with
    | inArray removed u => exact ⟨_, u, .inArray h, rfl⟩
    | byKey first count =>
      obtain ⟨r, u, hcopying, hall⟩ := copying_copyAll hash m (copiesUp first count) t
      rw [← shiftUp_eq] at hall
      show ∃ r u, _ ∧ (t.shiftUp (m.context hash) first count >>= fun t ↦
        t.setInt (m.context hash) (Int64.ofNat first) value) = _
      rw [hall]
      cases r with
      | error e => exact ⟨_, u, .stopped h hcopying, rfl⟩
      | ok _ =>
        cases hstore : u.storeKey hash (.still m) (.int (Int64.ofNat first)) value with
        | mk r w =>
          exact ⟨r, w, .byKey (c := .still m) h hcopying (le_refl m) hstore (le_refl m),
            setInt_eq hstore⟩

/-- The removal of a table alone is one in which nothing is released. -/
theorem removing_remove (hash : Value → UInt64) (m : Moment) (t : Table) (position : Int64) :
    ∃ r u, Removing hash m t position r m u ∧
      t.remove (m.context hash) position = r.map fun removed ↦ (removed, u) := by
  unfold Table.remove
  cases h : t.removal (m.context hash) position with
  | error e => exact ⟨_, t, .refused h, rfl⟩
  | ok shift =>
    cases shift with
    | inArray removed u => exact ⟨_, u, .inArray h, rfl⟩
    | byKey first count =>
      obtain ⟨r, u, hcopying, hall⟩ := copying_copyAll hash m (copiesDown first count) t
      rw [← shiftDown_eq] at hall
      show ∃ r u, _ ∧ (t.shiftDown (m.context hash) first count >>= fun u ↦
        u.setInt (m.context hash) (Int64.ofNat (first + count)) .nil >>= fun w ↦
          pure (t.getInt (m.context hash) (Int64.ofNat first), w)) = _
      rw [hall]
      cases r with
      | error e => exact ⟨_, u, .stopped h hcopying, rfl⟩
      | ok _ =>
        cases hstore : u.storeKey hash (.still m) (.int (Int64.ofNat (first + count))) .nil with
        | mk r w =>
          refine ⟨_, w, .byKey (c := .still m) h hcopying (le_refl m) hstore (le_refl m), ?_⟩
          show u.setInt (m.context hash) (Int64.ofNat (first + count)) .nil >>= _ = _
          rw [setInt_eq hstore]
          cases r <;> rfl

end LuaData.Table
