import Mathlib.Data.Multiset.Defs
import LuaData.Proofs.Twins

/-!
# Independence of the hash

What can be observed of a table does not depend on the hash that it uses. `Runs` is a sequence of
calls to a new table, with what every call returned and what could be observed after it. Under two
hashes that respect equality the same calls leave twins, step by step (`Twins.performs`), so that
the two runs have the same log: `Runs.log_independent`.
-/

namespace LuaData.Table

variable {hash hash' : Value → UInt64} {hint : Nat} {m m' n n' : Moment} {c c' : Course}
  {t t' u u' : Table} {key value : Value}

/-! ## The length -/

/-- Twins have the same border. -/
theorem Twins.length_eq (h : Twins hash hash' m m' t t') (hhash : Value.RespectsEq hash)
    (hhash' : Value.RespectsEq hash') (hsize : t.array.size ≤ 2 ^ 62) :
    t'.length (m'.context hash') = t.length (m.context hash) := by
  have harray := h.array_eq (by omega)
  have hlive := h.live_eq hhash hhash'
  have hhas : t'.hasInt (m'.context hash') = t.hasInt (m.context hash) := by
    funext j
    show (!(t'.get (m'.context hash') (.int (Int64.ofNat j))).isNil) = _
    rw [h.get_eq m m']
    rfl
  have hborder : t'.hashBorder (m'.context hash') = t.hashBorder (m.context hash) := by
    unfold hashBorder
    rw [hhas, harray]
    split
    · rfl
    · -- The arenas may differ in size, but both have a slot for every live one.
      obtain ⟨j, hj, habsent⟩ := h.left.exists_absent hhash hsize
      have hslots := h.left.sound.arena.used_add_length_free
      have hslots' := h.right.sound.arena.used_add_length_free
      rw [h.left.used_eq_live] at hslots
      rw [h.right.used_eq_live, hlive] at hslots'
      exact countFrom_eq_of_lt habsent (by omega) (by omega)
  unfold Table.length
  rw [harray, hlive, hborder]

/-! ## Insertions and removals -/

/-- Values are shifted key by key: copies are made and then a value is written, or one of the copies
fails. -/
inductive Shifts (hash : Value → UInt64) (jobs : List (Nat × Nat)) (key value : Value) (m : Moment)
    (t : Table) : Except Error Unit → Moment → Table → Prop
  | done {n : Moment} {c : Course} {u w : Table} {r : Except Error Unit}
      (hcopies : Copies hash jobs m t n u) (hle : n ≤ c.clear) (hsize : u.array.size ≤ 2 ^ 31)
      (hstore : u.storeKey hash c key value = (r, w)) : Shifts hash jobs key value m t r c.last w
  | stopped {n : Moment} {c : Course} {u w : Table} {e : Error} {made rest : List (Nat × Nat)}
      {job : Nat × Nat} (hjobs : jobs = made ++ job :: rest) (hcopies : Copies hash made m t n u)
      (hle : n ≤ c.clear) (hsize : u.array.size ≤ 2 ^ 31)
      (hcopy : u.copy hash n c job = (.error e, w)) :
      Shifts hash jobs key value m t (.error e) c.last w

/-- An insertion goes by what was decided about it. -/
theorem Inserts.of_insertion {position : Int64} {made : List (Nat × Nat)} {r : Except Error Unit}
    (h : Inserts hash m t position value made r n u) :
    match t.insertion (m.context hash) position value with
    | .error e => r = .error e ∧ n = m ∧ u = t
    | .ok (.inArray _ w) => r = .ok () ∧ n = m ∧ u = w
    | .ok (.byKey first count) =>
      Shifts hash (copiesUp first count) (.int (Int64.ofNat first)) value m t r n u := by
  cases h with
  | refused h => exact h ▸ ⟨rfl, rfl, rfl⟩
  | inArray h => exact h ▸ ⟨rfl, rfl, rfl⟩
  | byKey h hcopies hle hsize hstore => exact h ▸ .done hcopies hle hsize hstore
  | stopped h hjobs hcopies hle hsize hcopy => exact h ▸ .stopped hjobs hcopies hle hsize hcopy

/-- A removal goes by what was decided about it. -/
theorem Removes.of_removal {position : Int64} {made : List (Nat × Nat)} {r : Except Error Value}
    (h : Removes hash m t position made r n u) :
    match t.removal (m.context hash) position with
    | .error e => r = .error e ∧ n = m ∧ u = t
    | .ok (.inArray removed w) => r = .ok removed ∧ n = m ∧ u = w
    | .ok (.byKey first count) => ∃ s,
      r = (fun _ ↦ t.getInt (m.context hash) (Int64.ofNat first)) <$> s ∧
        Shifts hash (copiesDown first count) (.int (Int64.ofNat (first + count))) .nil m t s n
          u := by
  cases h with
  | refused h => exact h ▸ ⟨rfl, rfl, rfl⟩
  | inArray h => exact h ▸ ⟨rfl, rfl, rfl⟩
  | byKey h hcopies hle hsize hstore => exact h ▸ ⟨_, rfl, .done hcopies hle hsize hstore⟩
  | stopped h hjobs hcopies hle hsize hcopy =>
    exact h ▸ ⟨_, rfl, .stopped hjobs hcopies hle hsize hcopy⟩

namespace Twins

/-- Values are shifted alike in twins. -/
theorem shifts {jobs : List (Nat × Nat)} {k : Int64} {r r' : Except Error Unit}
    (h : Twins hash hash' m m' t t') (hhash : Value.RespectsEq hash)
    (hhash' : Value.RespectsEq hash') (hnamed : value.Named m.fresh)
    (hnamed' : value.Named m'.fresh) (hshifts : Shifts hash jobs (.int k) value m t r n u)
    (hshifts' : Shifts hash' jobs (.int k) value m' t' r' n' u') :
    r' = r ∧ Twins hash hash' n n' u u' := by
  cases hshifts with
  | @done o _ _ _ _ hcopies hle hsize hstore =>
    cases hshifts' with
    | @done o' _ _ _ _ hcopies' hle' hsize' hstore' =>
      have hmo := (hcopies.evolved h.left.sound hhash).1
      have hmo' := (hcopies'.evolved h.right.sound hhash').1
      have hp : Writable o.fresh (.int k) value :=
        ⟨Value.stored_int k, nofun, hnamed.mono (Moment.fresh_le hmo)⟩
      have hp' : Writable o'.fresh (.int k) value :=
        ⟨Value.stored_int k, nofun, hnamed'.mono (Moment.fresh_le hmo')⟩
      have halike := (h.copies hhash hhash' hcopies hcopies').storeKey hhash hhash' hle hle' hp hp'
        hsize
      rw [hstore, hstore'] at halike
      exact halike
    | stopped hjobs' hcopies' hle' hsize' hcopy' =>
      subst hjobs'
      exact (h.symm.not_copied hhash' hhash hcopies' hle' hsize' hcopy' hcopies).elim
  | stopped hjobs hcopies hle hsize hcopy =>
    cases hshifts' with
    | done hcopies' =>
      subst hjobs
      exact (h.not_copied hhash hhash' hcopies hle hsize hcopy hcopies').elim
    | stopped hjobs' hcopies' hle' hsize' hcopy' =>
      obtain ⟨rfl, hw⟩ := h.stopped hhash hhash' (hjobs.symm.trans hjobs') hcopies hcopies' hle hle'
        hsize hsize' hcopy hcopy'
      exact ⟨rfl, hw⟩

/-- The same is decided about an insertion into twins. -/
theorem insertion (h : Twins hash hash' m m' t t') (hhash : Value.RespectsEq hash)
    (hhash' : Value.RespectsEq hash') (hsize : t.array.size ≤ 2 ^ 31)
    (hnamed : value.Named m.fresh) (hnamed' : value.Named m'.fresh) (position : Int64) :
    match t.insertion (m.context hash) position value with
    | .error e => t'.insertion (m'.context hash') position value = .error e
    | .ok (.inArray removed u) => ∃ u',
      t'.insertion (m'.context hash') position value = .ok (.inArray removed u') ∧
        Twins hash hash' m m' u u'
    | .ok (.byKey first count) =>
      t'.insertion (m'.context hash') position value = .ok (.byKey first count) := by
  have harray := h.array_size
  have hleft := h.left.sound.insertion_cases hhash hsize hnamed position rfl
  have hright := h.right.sound.insertion_cases hhash' (harray ▸ hsize) hnamed' position
    (h.length_eq hhash hhash' (by omega))
  generalize t.length (m.context hash) = border at hleft hright
  -- Which of the cases applies is a matter of the position, the border and the size of the array,
  -- and in all three the twins agree.
  rcases hleft with ⟨hbad, he⟩ |
    ⟨first, count, hpos, hsum, hfirst, ⟨u, hu, husound, hframe, hget, hcount, hend⟩ | ⟨hu, hkey⟩⟩
  · rw [he]
    rcases hright with ⟨-, he'⟩ | ⟨first', count', hpos', hsum', hfirst', -⟩
    · exact he'
    · omega
  · rw [hu]
    rcases hright with ⟨hbad', -⟩ | ⟨first', count', hpos', hsum', hfirst',
      ⟨u', hu', husound', hframe', hget', hcount', hend'⟩ | ⟨-, hkey'⟩⟩
    · omega
    · obtain ⟨rfl, rfl⟩ : first' = first ∧ count' = count := by omega
      have hsame : ∀ k : Value, k.Stored →
          u'.get (m'.context hash') k = u.get (m.context hash) k := by
        intro k hk
        rw [hget k hk, hget' k hk, funext (h.get_eq m m')]
      refine ⟨u', hu', twins_of_get (h.left.of_frame husound hframe)
        (h.right.of_frame husound' hframe') ?_ ?_ hsame⟩
      · rcases hend with ⟨hlt, husize⟩ | ⟨heq, hextent⟩
        · rcases hend' with ⟨-, husize'⟩ | ⟨heq', -⟩
          · rw [husize, husize', harray]
          · omega
        · rcases hend' with ⟨hlt', -⟩ | ⟨-, hextent'⟩
          · omega
          · rw [harray] at hextent'
            exact hextent'.unique (hextent.congr fun k ↦ hsame _ (Value.stored_int k))
      · rw [hframe.size, hframe'.size, h.buckets_size]
    · have hmode' : t'.mode.values = false := congrArg WeakMode.values h.right.mode
      have := hkey' hmode' h.right.anchored
      omega
  · rw [hu]
    rcases hright with ⟨hbad', -⟩ | ⟨first', count', hpos', hsum', hfirst',
      ⟨u', hu', -, -, -, hcount', hend'⟩ | ⟨hu', -⟩⟩
    · omega
    · have hmode : t.mode.values = false := congrArg WeakMode.values h.left.mode
      have := hkey hmode h.left.anchored
      omega
    · obtain ⟨rfl, rfl⟩ : first' = first ∧ count' = count := by omega
      exact hu'

/-- An insertion has the same outcome for twins. -/
theorem inserts {position : Int64} {made made' : List (Nat × Nat)} {r r' : Except Error Unit}
    (h : Twins hash hash' m m' t t') (hhash : Value.RespectsEq hash)
    (hhash' : Value.RespectsEq hash') (hsize : t.array.size ≤ 2 ^ 31)
    (hnamed : value.Named m.fresh) (hnamed' : value.Named m'.fresh)
    (hinserts : Inserts hash m t position value made r n u)
    (hinserts' : Inserts hash' m' t' position value made' r' n' u') :
    r' = r ∧ Twins hash hash' n n' u u' := by
  have hleft := hinserts.of_insertion
  have hright := hinserts'.of_insertion
  have hdecided := h.insertion hhash hhash' hsize hnamed hnamed' position
  generalize t.insertion (m.context hash) position value = decision at hleft hdecided
  cases decision with
  | error e =>
    rw [show t'.insertion _ _ _ = _ from hdecided] at hright
    obtain ⟨rfl, rfl, rfl⟩ := hleft
    obtain ⟨rfl, rfl, rfl⟩ := hright
    exact ⟨rfl, h⟩
  | ok shift =>
    cases shift with
    | inArray removed w =>
      obtain ⟨w', hw', htwins⟩ := hdecided
      rw [hw'] at hright
      obtain ⟨rfl, rfl, rfl⟩ := hleft
      obtain ⟨rfl, rfl, rfl⟩ := hright
      exact ⟨rfl, htwins⟩
    | byKey first count =>
      rw [show t'.insertion _ _ _ = _ from hdecided] at hright
      exact h.shifts hhash hhash' hnamed hnamed' hleft hright

/-- A copy that fails in one of the twins fails in the other. -/
theorem exists_copy_error {job : Nat × Nat} {e : Error} (h : Twins hash hash' m m t t')
    (hhash : Value.RespectsEq hash) (hhash' : Value.RespectsEq hash') (hle : m ≤ c.clear)
    (hsize : t.array.size ≤ 2 ^ 31) (hcopy : t.copy hash m c job = (.error e, u)) :
    ∃ u', t'.copy hash' m c job = (.error e, u') := by
  have halike := h.copy hhash hhash' hle hle hsize job
  rw [hcopy] at halike
  exact ⟨(t'.copy hash' m c job).2, Prod.ext halike.1 rfl⟩

/-- An insertion into one of the twins can be made into the other at the same moments. -/
theorem exists_inserts {position : Int64} {made : List (Nat × Nat)} {r : Except Error Unit}
    (h : Twins hash hash' m m t t') (hhash : Value.RespectsEq hash)
    (hhash' : Value.RespectsEq hash') (hsize : t.array.size ≤ 2 ^ 31)
    (hnamed : value.Named m.fresh) (hinserts : Inserts hash m t position value made r n u) :
    ∃ r' u', Inserts hash' m t' position value made r' n u' := by
  have hdecided := h.insertion hhash hhash' hsize hnamed hnamed position
  cases hinserts with
  | refused heq =>
    rw [heq] at hdecided
    exact ⟨_, _, .refused hdecided⟩
  | inArray heq =>
    rw [heq] at hdecided
    obtain ⟨u', hu', -⟩ := hdecided
    exact ⟨_, _, .inArray hu'⟩
  | byKey heq hcopies hle hsize' =>
    rw [heq] at hdecided
    obtain ⟨w', hcopies', htwins⟩ := h.exists_copies hhash hhash' hcopies
    exact ⟨_, _, .byKey hdecided hcopies' hle (htwins.array_size ▸ hsize') rfl⟩
  | stopped heq hjobs hcopies hle hsize' hcopy =>
    rw [heq] at hdecided
    obtain ⟨w', hcopies', htwins⟩ := h.exists_copies hhash hhash' hcopies
    obtain ⟨u', hcopy'⟩ := htwins.exists_copy_error hhash hhash' hle hsize' hcopy
    exact ⟨_, _, .stopped hdecided hjobs hcopies' hle (htwins.array_size ▸ hsize') hcopy'⟩

/-- The same is decided about a removal from twins. -/
theorem removal (h : Twins hash hash' m m' t t') (hhash : Value.RespectsEq hash)
    (hhash' : Value.RespectsEq hash') (hsize : t.array.size ≤ 2 ^ 31) (position : Int64) :
    match t.removal (m.context hash) position with
    | .error e => t'.removal (m'.context hash') position = .error e
    | .ok (.inArray removed u) => ∃ u',
      t'.removal (m'.context hash') position = .ok (.inArray removed u') ∧
        Twins hash hash' m m' u u'
    | .ok (.byKey first count) =>
      t'.removal (m'.context hash') position = .ok (.byKey first count) := by
  have harray := h.array_size
  have hleft := h.left.sound.removal_cases hsize position rfl
  have hright := h.right.sound.removal_cases (harray ▸ hsize) position
    (h.length_eq hhash hhash' (by omega))
  generalize t.length (m.context hash) = border at hleft hright
  have hnone : position = 0 → border = 0 → removePosition border position = 0 := by
    intro hposition hborder
    rw [removePosition, if_pos hposition, hborder]
    rfl
  rcases hleft with ⟨hbad, he⟩ | ⟨hposition, hborder, hu⟩ |
    ⟨first, count, hpos, hsum, hfirst, ⟨u, hu, husound, hframe, hget, hin, husize⟩ | ⟨hu, hkey⟩⟩
  · rw [he]
    rcases hright with ⟨-, he'⟩ | ⟨hposition', hborder', -⟩ |
      ⟨first', count', hpos', hsum', hfirst', -⟩
    · exact he'
    · have := hnone hposition' hborder'
      omega
    · omega
  · rw [hu]
    have hzero := hnone hposition hborder
    rcases hright with ⟨hbad', -⟩ | ⟨-, -, hu'⟩ | ⟨first', count', hpos', hsum', hfirst', -⟩
    · omega
    · exact ⟨t', hu', h⟩
    · omega
  · rw [hu]
    rcases hright with ⟨hbad', -⟩ | ⟨hposition', hborder', -⟩ | ⟨first', count', hpos', hsum',
      hfirst', ⟨u', hu', husound', hframe', hget', hin', husize'⟩ | ⟨-, hkey'⟩⟩
    · omega
    · have := hnone hposition' hborder'
      omega
    · obtain ⟨rfl, rfl⟩ : first' = first ∧ count' = count := by omega
      rw [h.get_eq m m'] at hu'
      refine ⟨u', hu', twins_of_get (h.left.of_frame husound hframe)
        (h.right.of_frame husound' hframe') ?_ ?_ fun k hk ↦ ?_⟩
      · rw [husize, husize', harray]
      · rw [hframe.size, hframe'.size, h.buckets_size]
      · rw [hget k hk, hget' k hk, funext (h.get_eq m m')]
    · omega
  · rw [hu]
    rcases hright with ⟨hbad', -⟩ | ⟨hposition', hborder', -⟩ | ⟨first', count', hpos', hsum',
      hfirst', ⟨u', -, -, -, -, hin', -⟩ | ⟨hu', -⟩⟩
    · omega
    · have := hnone hposition' hborder'
      omega
    · omega
    · obtain ⟨rfl, rfl⟩ : first' = first ∧ count' = count := by omega
      exact hu'

/-- A removal has the same outcome for twins. -/
theorem removes {position : Int64} {made made' : List (Nat × Nat)} {r r' : Except Error Value}
    (h : Twins hash hash' m m' t t') (hhash : Value.RespectsEq hash)
    (hhash' : Value.RespectsEq hash') (hsize : t.array.size ≤ 2 ^ 31)
    (hremoves : Removes hash m t position made r n u)
    (hremoves' : Removes hash' m' t' position made' r' n' u') :
    r' = r ∧ Twins hash hash' n n' u u' := by
  have hleft := hremoves.of_removal
  have hright := hremoves'.of_removal
  have hdecided := h.removal hhash hhash' hsize position
  generalize t.removal (m.context hash) position = decision at hleft hdecided
  cases decision with
  | error e =>
    rw [show t'.removal _ _ = _ from hdecided] at hright
    obtain ⟨rfl, rfl, rfl⟩ := hleft
    obtain ⟨rfl, rfl, rfl⟩ := hright
    exact ⟨rfl, h⟩
  | ok shift =>
    cases shift with
    | inArray removed w =>
      obtain ⟨w', hw', htwins⟩ := hdecided
      rw [hw'] at hright
      obtain ⟨rfl, rfl, rfl⟩ := hleft
      obtain ⟨rfl, rfl, rfl⟩ := hright
      exact ⟨rfl, htwins⟩
    | byKey first count =>
      rw [show t'.removal _ _ = _ from hdecided] at hright
      obtain ⟨s, rfl, hshifts⟩ := hleft
      obtain ⟨s', rfl, hshifts'⟩ := hright
      have hnil : ∀ fresh, Value.nil.Named fresh := fun _ ↦ nofun
      obtain ⟨rfl, hu⟩ := h.shifts hhash hhash' (hnil _) (hnil _) hshifts hshifts'
      refine ⟨?_, hu⟩
      rw [show t'.getInt (m'.context hash') (Int64.ofNat first) = _ from
        h.get_eq m m' (.int (Int64.ofNat first))]
      rfl

/-- A removal from one of the twins can be made from the other at the same moments. -/
theorem exists_removes {position : Int64} {made : List (Nat × Nat)} {r : Except Error Value}
    (h : Twins hash hash' m m t t') (hhash : Value.RespectsEq hash)
    (hhash' : Value.RespectsEq hash') (hsize : t.array.size ≤ 2 ^ 31)
    (hremoves : Removes hash m t position made r n u) :
    ∃ r' u', Removes hash' m t' position made r' n u' := by
  have hdecided := h.removal hhash hhash' hsize position
  cases hremoves with
  | refused heq =>
    rw [heq] at hdecided
    exact ⟨_, _, .refused hdecided⟩
  | inArray heq =>
    rw [heq] at hdecided
    obtain ⟨u', hu', -⟩ := hdecided
    exact ⟨_, _, .inArray hu'⟩
  | byKey heq hcopies hle hsize' =>
    rw [heq] at hdecided
    obtain ⟨w', hcopies', htwins⟩ := h.exists_copies hhash hhash' hcopies
    exact ⟨_, _, .byKey hdecided hcopies' hle (htwins.array_size ▸ hsize') rfl⟩
  | stopped heq hjobs hcopies hle hsize' hcopy =>
    rw [heq] at hdecided
    obtain ⟨w', hcopies', htwins⟩ := h.exists_copies hhash hhash' hcopies
    obtain ⟨u', hcopy'⟩ := htwins.exists_copy_error hhash hhash' hle hsize' hcopy
    exact ⟨_, _, .stopped hdecided hjobs hcopies' hle (htwins.array_size ▸ hsize') hcopy'⟩

end Twins

/-! ## Runs -/

/-- What can be observed of a table. -/
structure Observation where
  arrayCapacity : Nat
  hashCapacity : Nat
  tombstones : Nat
  keyCount : Nat
  length : Nat
  /-- The entries, in no order and with their keys in normal form. -/
  listed : Multiset (Value × Value)

/-- What can be observed of a table at a moment. -/
def observe (ctx : Context) (t : Table) : Observation where
  arrayCapacity := t.arrayCapacity
  hashCapacity := t.hashCapacity
  tombstones := t.tombstones
  keyCount := t.keyCount ctx
  length := t.length ctx
  listed := Multiset.ofList ((t.entries ctx).map fun e ↦ (e.1.content, e.2))

/-- A call to a table. -/
inductive Call where
  | set (key value : Value)
  | get (key : Value)
  | insert (position : Int64) (value : Value)
  | remove (position : Int64)
  | length

/-- What a call returns when it does not fail. -/
inductive Returned where
  | nothing
  | value (v : Value)
  | length (n : Nat)

/-- A call is performed. Within a write and between the writes of a shift cells may be released; the
values that are passed in have been named before. -/
inductive Performs (hash : Value → UInt64) (m : Moment) (t : Table) :
    Call → Except Error Returned → Moment → Table → Prop
  | set {c : Course} {key value : Value} (hsize : t.array.size ≤ 2 ^ 31) (hle : m ≤ c.clear)
      (hnamed : key.Named m.fresh) (hvalueNamed : value.Named m.fresh) :
      Performs hash m t (.set key value) ((fun _ ↦ .nothing) <$> (t.store hash c key value).1)
        c.last (t.store hash c key value).2
  | get (key : Value) :
      Performs hash m t (.get key) (.ok (.value (t.get (m.context hash) key))) m t
  | insert {n : Moment} {u : Table} {position : Int64} {value : Value} {made : List (Nat × Nat)}
      {r : Except Error Unit} (hsize : t.array.size ≤ 2 ^ 31) (hvalueNamed : value.Named m.fresh)
      (h : Inserts hash m t position value made r n u) :
      Performs hash m t (.insert position value) ((fun _ ↦ .nothing) <$> r) n u
  | remove {n : Moment} {u : Table} {position : Int64} {made : List (Nat × Nat)}
      {r : Except Error Value} (hsize : t.array.size ≤ 2 ^ 31)
      (h : Removes hash m t position made r n u) :
      Performs hash m t (.remove position) (.value <$> r) n u
  | length : Performs hash m t .length (.ok (.length (t.length (m.context hash)))) m t

/-- A call with its answer and what can be observed after it. -/
structure Logged where
  call : Call
  answer : Except Error Returned
  observed : Observation

/-- A sequence of calls to a new table, the latest one first in the log. -/
inductive Runs (hash : Value → UInt64) (hint : Nat) : List Logged → Moment → Table → Prop
  | new (m : Moment) : Runs hash hint [] m (withHashSize hint)
  | call {log : List Logged} {m n o : Moment} {t u : Table} {call : Call}
      {answer : Except Error Returned} (h : Runs hash hint log m t) (hle : m ≤ n)
      (hcall : Performs hash n t call answer o u) :
      Runs hash hint (⟨call, answer, u.observe (o.context hash)⟩ :: log) o u

/-- A run reaches its table. -/
theorem Runs.reaches {log : List Logged} (h : Runs hash hint log m t) :
    Reaches hash hint m t := by
  induction h with
  | new m => exact .new m
  | call _ hle hcall ih =>
    have hwait := ih.wait hle
    cases hcall with
    | set hsize hle' hnamed hvalueNamed => exact hwait.store hsize hle' hnamed hvalueNamed
    | get => exact hwait
    | insert hsize hvalueNamed hinserts => exact hwait.insert hsize hvalueNamed hinserts
    | remove hsize hremoves => exact hwait.remove hsize hremoves
    | length => exact hwait

/-- New tables are twins. -/
theorem twins_withHashSize (hash hash' : Value → UInt64) (m m' : Moment) (hint : Nat) :
    Twins hash hash' m m' (withHashSize hint) (withHashSize hint) :=
  ⟨plain_withHashSize hash m hint, plain_withHashSize hash' m' hint, rfl, rfl, fun key ↦
    (get_withHashSize _ hint key).trans (get_withHashSize _ hint key).symm⟩

namespace Twins

/-- The same can be observed of twins. -/
theorem observe_eq (h : Twins hash hash' m m' t t') (hhash : Value.RespectsEq hash)
    (hhash' : Value.RespectsEq hash') (hsize : t.array.size ≤ 2 ^ 62) :
    t'.observe (m'.context hash') = t.observe (m.context hash) := by
  have harray : t'.arrayEntries = t.arrayEntries := by
    rw [arrayEntries, arrayEntries, h.array_eq (by omega)]
  have hlisted : ((t'.entries (m'.context hash')).map fun e ↦ (e.1.content, e.2)).Perm
      ((t.entries (m.context hash)).map fun e ↦ (e.1.content, e.2)) := by
    simp only [entries, List.map_append, harray]
    exact (h.hashListing_perm hhash hhash').append_left _
  have hcount : t'.keyCount (m'.context hash') = t.keyCount (m.context hash) := by
    have hlength := hlisted.length_eq
    rwa [List.length_map, List.length_map] at hlength
  have htombstones : t'.tombstones = t.tombstones :=
    h.right.dead_eq_zero.trans h.left.dead_eq_zero.symm
  unfold observe
  rw [hcount, htombstones, h.length_eq hhash hhash' hsize, Multiset.coe_eq_coe.mpr hlisted,
    show t'.arrayCapacity = t.arrayCapacity from h.array_size,
    show t'.hashCapacity = t.hashCapacity from h.buckets_size]

/-- A call to twins has the same answer and leaves twins. -/
theorem performs {call : Call} {answer answer' : Except Error Returned}
    (h : Twins hash hash' m m' t t') (hhash : Value.RespectsEq hash)
    (hhash' : Value.RespectsEq hash') (hsize : t.array.size ≤ 2 ^ 62)
    (hcall : Performs hash m t call answer n u) (hcall' : Performs hash' m' t' call answer' n' u') :
    answer' = answer ∧ Twins hash hash' n n' u u' := by
  cases hcall with
  | set hsize hle hnamed hvalueNamed =>
    cases hcall' with
    | set _ hle' hnamed' hvalueNamed' =>
      have halike := h.store hhash hhash' hle hle' hnamed hnamed' hvalueNamed hvalueNamed' hsize
      exact ⟨by rw [halike.1], halike.2⟩
  | get key =>
    cases hcall' with
    | get => exact ⟨by rw [h.get_eq m m'], h⟩
  | insert hsize hvalueNamed hinserts =>
    cases hcall' with
    | insert _ hvalueNamed' hinserts' =>
      obtain ⟨hr, hu⟩ := h.inserts hhash hhash' hsize hvalueNamed hvalueNamed' hinserts hinserts'
      exact ⟨by rw [hr], hu⟩
  | remove hsize hremoves =>
    cases hcall' with
    | remove _ hremoves' =>
      obtain ⟨hr, hu⟩ := h.removes hhash hhash' hsize hremoves hremoves'
      exact ⟨by rw [hr], hu⟩
  | length =>
    cases hcall' with
    | length => exact ⟨by rw [h.length_eq hhash hhash' hsize], h⟩

/-- A call to one of the twins can be made to the other at the same moments, with the same
answer. -/
theorem exists_performs {call : Call} {answer : Except Error Returned}
    (h : Twins hash hash' m m t t') (hhash : Value.RespectsEq hash)
    (hhash' : Value.RespectsEq hash') (hsize : t.array.size ≤ 2 ^ 62)
    (hcall : Performs hash m t call answer n u) : ∃ u', Performs hash' m t' call answer n u' := by
  have hexists : ∃ answer' u', Performs hash' m t' call answer' n u' := by
    cases hcall with
    | set hsize hle hnamed hvalueNamed =>
      exact ⟨_, _, .set (h.array_size ▸ hsize) hle hnamed hvalueNamed⟩
    | get key => exact ⟨_, _, .get key⟩
    | insert hsize hvalueNamed hinserts =>
      obtain ⟨r', u', hinserts'⟩ := h.exists_inserts hhash hhash' hsize hvalueNamed hinserts
      exact ⟨_, _, .insert (h.array_size ▸ hsize) hvalueNamed hinserts'⟩
    | remove hsize hremoves =>
      obtain ⟨r', u', hremoves'⟩ := h.exists_removes hhash hhash' hsize hremoves
      exact ⟨_, _, .remove (h.array_size ▸ hsize) hremoves'⟩
    | length => exact ⟨_, _, .length⟩
  obtain ⟨answer', u', hcall'⟩ := hexists
  obtain ⟨rfl, -⟩ := h.performs hhash hhash' hsize hcall hcall'
  exact ⟨u', hcall'⟩

end Twins

/-- The same calls leave twins and the same log. -/
theorem Runs.twins {log log' : List Logged} (h : Runs hash hint log m t)
    (h' : Runs hash' hint log' m' t') (hhash : Value.RespectsEq hash)
    (hhash' : Value.RespectsEq hash') (hcalls : log'.map Logged.call = log.map Logged.call) :
    log' = log ∧ Twins hash hash' m m' t t' := by
  induction h generalizing log' m' t' with
  | new m =>
    cases h' with
    | new m' => exact ⟨rfl, twins_withHashSize hash hash' m m' hint⟩
    | call => exact absurd hcalls nofun
  | call hrun hle hcall ih =>
    cases h' with
    | new m' => exact absurd hcalls nofun
    | call hrun' hle' hcall' =>
      obtain ⟨rfl, hrest⟩ := List.cons.inj hcalls
      obtain ⟨rfl, htwins⟩ := ih hrun' hrest
      have hsize := hrun.reaches.size_le hhash
      obtain ⟨rfl, hu⟩ := (htwins.later hle hle').performs hhash hhash' (by omega) hcall hcall'
      have husize := (hrun.call hle hcall).reaches.size_le hhash
      refine ⟨?_, hu⟩
      rw [hu.observe_eq hhash hhash' (by omega)]

/-- A run under one hash can be made under the other at the same moments, with the same log. -/
theorem Runs.exists_run {log : List Logged} (h : Runs hash hint log m t)
    (hhash : Value.RespectsEq hash) (hhash' : Value.RespectsEq hash') :
    ∃ t', Runs hash' hint log m t' := by
  induction h with
  | new m => exact ⟨_, .new m⟩
  | call hrun hle hcall ih =>
    obtain ⟨t', hrun'⟩ := ih
    have hsize := hrun.reaches.size_le hhash
    have htwins := (hrun.twins hrun' hhash hhash' rfl).2.later hle hle
    obtain ⟨u', hcall'⟩ := htwins.exists_performs hhash hhash' (by omega) hcall
    have hrun'' := hrun'.call hle hcall'
    obtain ⟨heq, -⟩ := (hrun.call hle hcall).twins hrun'' hhash hhash' rfl
    exact ⟨u', heq ▸ hrun''⟩

/-- What can be observed of a table does not depend on its hash: a sequence of calls that is made
under one hash can be made under every other, and it returns the same and shows the same after every
call. -/
theorem Runs.log_independent {log : List Logged} (hhash : Value.RespectsEq hash)
    (hhash' : Value.RespectsEq hash') (h : Runs hash hint log m t) :
    (∃ t', Runs hash' hint log m t') ∧
      ∀ log' m' t', Runs hash' hint log' m' t' →
        log'.map Logged.call = log.map Logged.call → log' = log :=
  ⟨h.exists_run hhash hhash', fun _ _ _ h' hcalls ↦ (h.twins h' hhash hhash' hcalls).1⟩

/-- Two entries in one chain are not told from two entries in different ones. -/
theorem log_independent_of_collision :
    ∃ log t t', Runs Value.hash 4 log .origin t ∧ Runs (fun _ ↦ 0) 4 log .origin t' ∧
      log.length = 3 ∧ t.buckets ≠ t'.buckets := by
  let one (hash : Value → UInt64) : Table :=
    (store hash (.still .origin) (withHashSize 4) (.int 7) (.bool true)).2
  let two (hash : Value → UInt64) : Table :=
    (store hash (.still .origin) (one hash) (.int 9) (.bool false)).2
  have hrun : ∀ hash, (one hash).array.size ≤ 2 ^ 31 → ∃ log, Runs hash 4 log .origin (two hash) ∧
      log.map Logged.call = [.length, .set (.int 9) (.bool false), .set (.int 7) (.bool true)] := by
    intro hash hsize
    have hset : Performs hash .origin (withHashSize 4) (.set (.int 7) (.bool true)) _ _
        (one hash) :=
      .set (c := .still .origin) (by decide) (le_refl _) nofun nofun
    have hset' : Performs hash .origin (one hash) (.set (.int 9) (.bool false)) _ _ (two hash) :=
      .set (c := .still .origin) hsize (le_refl _) nofun nofun
    have htwo := (Runs.call (.new .origin) (le_refl _) hset).call (le_refl _) hset'
    exact ⟨_, htwo.call (le_refl _) .length, rfl⟩
  obtain ⟨log, h, hcalls⟩ := hrun Value.hash (by decide +kernel)
  obtain ⟨log', h', hcalls'⟩ := hrun (fun _ ↦ 0) (by decide +kernel)
  have heq : log' = log :=
    (Runs.log_independent Value.rawEq_hash (fun _ _ _ ↦ rfl) h).2 log' _ _ h'
      (hcalls'.trans hcalls.symm)
  have hlength := congrArg List.length hcalls
  rw [List.length_map] at hlength
  exact ⟨log, _, _, h, heq ▸ h', hlength, by decide +kernel⟩

end LuaData.Table
