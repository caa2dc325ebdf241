import LuaData.Proofs.Appending
import LuaData.Proofs.Traversal

/-!
# How long entries last

A chronicle lists what has happened to a table, the latest first: the writes that were done, and the
instants that passed, each with the weak mode of the table and the cells that were alive. It tells
what is in the table by one rule (`Survives`): the last value that was written under a key, if at
every instant since then the key and the value have lasted, because they are inline or strings, or
because the table holds them strongly, or because their cells are alive. `Life` is a table with its
chronicle, and `Life.remembers_survivors` says that its look-ups and all its listings follow the
rule.
-/

namespace LuaData

/-- A value that a table holds, weakly or not, is not cleared while these cells are alive. -/
def Value.Endures (weakly : Bool) (alive : Ref → Bool) (v : Value) : Prop :=
  v.ref? = none ∨ v.isString = true ∨ weakly = false ∨ v.present alive = true

instance (weakly : Bool) (alive : Ref → Bool) (v : Value) : Decidable (v.Endures weakly alive) :=
  inferInstanceAs (Decidable (_ ∨ _))

/-- Something that happens to a table. -/
inductive Happening where
  /-- A value is stored under a key. -/
  | written (key value : Value)
  /-- The table has this mode while these cells are alive. -/
  | instant (mode : WeakMode) (alive : Ref → Bool)

namespace Happening

/-- A value under a key lasts through what happens: it is not overwritten and not cleared. -/
def Spares (key value : Value) : Happening → Prop
  | .written k _ => k.normal? ≠ key.normal?
  | .instant mode alive => key.Endures mode.keys alive ∧ value.Endures mode.values alive

end Happening

/-- The last write under a key had this value, and since then nothing has cleared it. -/
def Survives (chronicle : List Happening) (key value : Value) : Prop :=
  ∃ later k earlier, chronicle = later ++ .written k value :: earlier ∧ k.normal? = key.normal? ∧
    ∀ happening ∈ later, happening.Spares key value

/-- What a chronicle leaves under a key in normal form. -/
def remaining : List Happening → Value → Value
  | [], _ => .nil
  | .written key value :: earlier, k =>
    if key.normal? = some k then value else remaining earlier k
  | .instant mode alive :: earlier, k =>
    if k.Endures mode.keys alive ∧ (remaining earlier k).Endures mode.values alive then
      remaining earlier k
    else .nil

variable {chronicle : List Happening} {happening : Happening} {key k v : Value}

/-! ## The rule -/

/-- The normal form of a value endures if the value does. -/
theorem Value.endures_iff_of_normal? (h : key.normal? = some k) (weakly : Bool)
    (alive : Ref → Bool) : key.Endures weakly alive ↔ k.Endures weakly alive := by
  obtain ⟨l, hl, rfl⟩ := Value.normal?_eq_some_iff.mp h
  cases key with
  | nil => cases hl
  | num x =>
    rcases Table.eq_or_inline_of_key? hl with rfl | ⟨i, rfl⟩
    · rfl
    · exact iff_of_true (.inl rfl) (.inl rfl)
  | str s =>
    cases hl
    exact iff_of_true (.inr (.inl rfl)) (.inr (.inl rfl))
  | _ =>
    cases hl
    rfl

/-- Equal keys are spared together. -/
theorem Happening.spares_iff_of_normal? (h : key.normal? = some k) :
    happening.Spares key v ↔ happening.Spares k v := by
  cases happening with
  | written key' value =>
    show key'.normal? ≠ key.normal? ↔ key'.normal? ≠ k.normal?
    rw [h, Value.normal?_idem h]
  | instant mode alive =>
    exact and_congr_left' (Value.endures_iff_of_normal? h _ _)

/-- Equal keys survive together. -/
theorem survives_iff_of_normal? (h : key.normal? = some k) :
    Survives chronicle key v ↔ Survives chronicle k v := by
  simp only [Survives, Happening.spares_iff_of_normal? h, h, Value.normal?_idem h]

/-- A value survives if the last thing was its write, or if it spared what survived before. -/
theorem survives_cons_iff :
    Survives (happening :: chronicle) key v ↔
      (∃ k, happening = .written k v ∧ k.normal? = key.normal?) ∨
        happening.Spares key v ∧ Survives chronicle key v := by
  constructor
  · rintro ⟨later, k, earlier, hsplit, hkey, hspares⟩
    cases later with
    | nil =>
      obtain ⟨rfl, rfl⟩ := List.cons.inj hsplit
      exact .inl ⟨k, rfl, hkey⟩
    | cons first later =>
      obtain ⟨rfl, rfl⟩ := List.cons.inj hsplit
      exact .inr ⟨hspares _ List.mem_cons_self, later, k, earlier, rfl, hkey,
        fun happening hmem ↦ hspares _ (List.mem_cons_of_mem _ hmem)⟩
  · rintro (⟨k, rfl, hkey⟩ | ⟨hspares, later, k, earlier, rfl, hkey, hlater⟩)
    · exact ⟨[], k, chronicle, rfl, hkey, nofun⟩
    · exact ⟨happening :: later, k, earlier, rfl, hkey, List.forall_mem_cons.mpr ⟨hspares, hlater⟩⟩

/-- What survives longer without being written has survived until then, and was spared since. -/
theorem survives_append_iff {later : List Happening}
    (hunwritten : ∀ k value, .written k value ∈ later → k.normal? ≠ key.normal?) :
    Survives (later ++ chronicle) key v ↔
      (∀ happening ∈ later, happening.Spares key v) ∧ Survives chronicle key v := by
  induction later with
  | nil => simp
  | cons first later ih =>
    have hfirst : ¬ ∃ k, first = .written k v ∧ k.normal? = key.normal? := by
      rintro ⟨k, rfl, hk⟩
      exact hunwritten k v List.mem_cons_self hk
    rw [List.cons_append, survives_cons_iff, or_iff_right hfirst,
      ih fun k value hmem ↦ hunwritten k value (List.mem_cons_of_mem _ hmem),
      List.forall_mem_cons, and_assoc]

/-- What a chronicle leaves is what survives. -/
theorem remaining_eq_iff (hk : k.normal? = some k) (hv : v ≠ .nil) :
    remaining chronicle k = v ↔ Survives chronicle k v := by
  induction chronicle with
  | nil =>
    refine iff_of_false (fun h ↦ hv h.symm) ?_
    rintro ⟨later, k', earlier, hsplit, -⟩
    cases later <;> cases hsplit
  | cons first earlier ih =>
    rw [survives_cons_iff]
    cases first with
    | written key value =>
      show (if key.normal? = some k then value else remaining earlier k) = v ↔ _
      by_cases hkey : key.normal? = some k
      · have hspares : ¬ (Happening.written key value).Spares k v := fun h ↦ h (hkey.trans hk.symm)
        rw [if_pos hkey, or_iff_left fun h ↦ hspares h.1]
        constructor
        · rintro rfl
          exact ⟨key, rfl, hkey.trans hk.symm⟩
        · rintro ⟨k', heq, -⟩
          cases heq
          rfl
      · have hspares : (Happening.written key value).Spares k v := fun h ↦ hkey (h.trans hk)
        rw [if_neg hkey, ih, and_iff_right hspares, or_iff_right]
        rintro ⟨k', heq, hk'⟩
        cases heq
        exact hkey (hk'.trans hk)
    | instant mode alive =>
      show (if k.Endures mode.keys alive ∧ (remaining earlier k).Endures mode.values alive then
        remaining earlier k else .nil) = v ↔ _
      rw [or_iff_right (by rintro ⟨k', heq, -⟩; cases heq), ← ih]
      constructor
      · intro heq
        split at heq
        · rename_i hendures
          rw [heq] at hendures
          exact ⟨hendures, heq⟩
        · exact absurd heq.symm hv
      · rintro ⟨hspares, rfl⟩
        exact if_pos hspares

namespace Table

variable {hash : Value → UInt64} {hint : Nat} {m n : Moment} {c : Course} {t u w : Table}
  {key value : Value}

/-! ## Handles and instants -/

/-- A handle made for a value is not empty while the value endures. -/
theorem get_ofEntry_iff (alive : Ref → Bool) (weakly : Bool) (v : Value) :
    (Handle.ofEntry v weakly).get alive = some v ↔ v.Endures weakly alive := by
  unfold Handle.ofEntry Handle.ofValue Value.Endures
  split
  · rename_i hweak
    simp only [Bool.and_eq_true, Bool.not_eq_true', Option.isSome_iff_ne_none] at hweak
    obtain ⟨⟨hweakly, hstring⟩, href⟩ := hweak
    simp [Handle.get, hweakly, hstring, href]
  · rename_i hstrong
    refine iff_of_true rfl ?_
    by_contra hlost
    simp only [not_or, Bool.not_eq_false, Bool.not_eq_true] at hlost
    obtain ⟨href, hstring, hweakly, -⟩ := hlost
    exact hstrong (by simp [hweakly, hstring, Option.isSome_iff_ne_none, href])

/-- An entry is kept while its key and its value endure. -/
theorem kept_iff (alive : Ref → Bool) (mode : WeakMode) (k v : Value) :
    Kept alive mode (k, v) ↔ k.Endures mode.keys alive ∧ v.Endures mode.values alive :=
  and_congr (get_ofEntry_iff alive mode.keys k) (get_ofEntry_iff alive mode.values v)

/-- What an instant leaves of an entry. -/
theorem remaining_instant (chronicle : List Happening) (mode : WeakMode) (alive : Ref → Bool)
    (k : Value) :
    remaining (.instant mode alive :: chronicle) k.content =
      if Kept alive mode (k, remaining chronicle k.content) then remaining chronicle k.content
      else .nil := by
  refine if_congr ?_ rfl rfl
  rw [← kept_iff]
  exact kept_congr (Value.content_content k) _

/-! ## A table and its chronicle -/

/-- A table with all that has happened to it, the latest first. Cells may be released between the
operations and, within a write, between its steps; a write that fails leaves only the time that it
took. A new weak mode is set while the old one is still in force. A regular life changes the table
only while its array part is within the limit, and none of its changes of the weak mode is
refused. -/
inductive Life (hash : Value → UInt64) (hint : Nat) (regular : Bool) :
    Moment → Table → List Happening → Prop
  | new (m : Moment) : Life hash hint regular m (withHashSize hint) []
  | wait {m n : Moment} {t : Table} {chronicle : List Happening}
      (h : Life hash hint regular m t chronicle) (hle : m ≤ n) :
      Life hash hint regular n t (.instant t.mode n.alive :: chronicle)
  | stored {m : Moment} {c : Course} {t u : Table} {chronicle : List Happening} {key value : Value}
      (h : Life hash hint regular m t chronicle) (hsize : regular = true → t.array.size ≤ 2 ^ 31)
      (hle : m ≤ c.clear) (hnamed : key.Named m.fresh) (hvalueNamed : value.Named m.fresh)
      (hstore : t.store hash c key value = (.ok (), u)) :
      Life hash hint regular c.last u
        (.instant t.mode c.last.alive :: .written key value :: chronicle)
  | notStored {m : Moment} {c : Course} {t u : Table} {chronicle : List Happening}
      {key value : Value} {e : Error} (h : Life hash hint regular m t chronicle)
      (hsize : regular = true → t.array.size ≤ 2 ^ 31) (hle : m ≤ c.clear)
      (hnamed : key.Named m.fresh) (hvalueNamed : value.Named m.fresh)
      (hstore : t.store hash c key value = (.error e, u)) :
      Life hash hint regular c.last u (.instant t.mode c.last.alive :: chronicle)
  | next {m : Moment} {t u : Table} {chronicle : List Happening} {key : Value}
      {e : Option (Value × Value)} (h : Life hash hint regular m t chronicle)
      (hnext : t.next (m.context hash) key = .ok (e, u)) : Life hash hint regular m u chronicle
  | setMetatable {m n : Moment} {t u : Table} {chronicle : List Happening} {metatable : Option Ref}
      {mode : WeakMode} (h : Life hash hint regular m t chronicle)
      (hsize : regular = true → t.array.size ≤ 2 ^ 31) (hle : m ≤ n)
      (hset : Table.setMode (n.context hash) { t with metatable } mode = .ok u) :
      Life hash hint regular n u (.instant mode n.alive :: .instant t.mode n.alive :: chronicle)
  /-- The new mode is in force although it is refused. -/
  | refused {m n : Moment} {t : Table} {chronicle : List Happening} {metatable : Option Ref}
      {mode : WeakMode} (h : Life hash hint regular m t chronicle) (hregular : regular = false)
      (hle : m ≤ n) (hrefused : Table.setMode (n.context hash) { t with metatable } mode =
        .error .tableOverflow) :
      Life hash hint regular n { t with metatable, mode }
        (.instant mode n.alive :: .instant t.mode n.alive :: chronicle)

variable {regular : Bool} {chronicle : List Happening}

/-- The table of a life is that of a run. -/
theorem Life.visits (h : Life hash hint regular m t chronicle) : Visits hash hint regular m t := by
  induction h with
  | new m => exact .new m
  | wait _ hle ih => exact .wait ih hle
  | stored _ hsize hle hnamed hvalueNamed hstore ih =>
    have hvisits := Visits.store ih hsize hle hnamed hvalueNamed
    rwa [hstore] at hvisits
  | notStored _ hsize hle hnamed hvalueNamed hstore ih =>
    have hvisits := Visits.store ih hsize hle hnamed hvalueNamed
    rwa [hstore] at hvisits
  | next _ hnext ih => exact .next ih hnext
  | setMetatable _ hsize hle hset ih => exact .setMetatable ih hsize hle hset
  | refused _ hregular hle hrefused ih => exact .refused ih hregular hle hrefused

/-- The table of a regular life is reached. -/
theorem Life.reaches (h : Life hash hint true m t chronicle) : Reaches hash hint m t :=
  h.visits

/-- The values of a table are what its chronicle leaves. -/
def Follows (hash : Value → UInt64) (m : Moment) (t : Table) (chronicle : List Happening) : Prop :=
  ∀ k : Value, k.Stored → t.get (m.context hash) k = remaining chronicle k.content

namespace Follows

/-- As time passes. -/
theorem wait (h : t.Follows hash m chronicle) (hs : t.Sound hash m) (hhash : Value.RespectsEq hash)
    (hle : m ≤ n) : t.Follows hash n (.instant t.mode n.alive :: chronicle) := by
  intro k hk
  rw [hs.get_later hle hhash hk, h k hk, remaining_instant]

/-- After a write. -/
theorem store (h : t.Follows hash m chronicle) (hs : t.Sound hash m) (hhash : Value.RespectsEq hash)
    (hle : m ≤ c.clear) (hnamed : key.Named m.fresh) (hvalueNamed : value.Named m.fresh)
    (hsize : t.array.size ≤ 2 ^ 31) (hstore : t.store hash c key value = (.ok (), u)) :
    u.Follows hash c.last (.instant t.mode c.last.alive :: .written key value :: chronicle) := by
  unfold Table.store storedKey at hstore
  cases hkey : key.key? with
  | none =>
    rw [hkey] at hstore
    cases hstore
  | some l =>
    rw [hkey] at hstore
    have hl := Value.stored_of_key? hkey
    have hvalueNamed' := hvalueNamed.mono (Moment.fresh_le hle)
    have houtcome := (hs.later hle).storeKey_cases hhash hl hvalueNamed' hsize
    rw [show t.storeKey hash c l value = (.ok (), u) from hstore] at houtcome
    have hrewritten := houtcome.rewritten (hs.later hle) hhash hl
      ((named_of_key? hkey hnamed).mono (Moment.fresh_le hle)) hvalueNamed' hsize
    have hbefore := h.wait hs hhash (hle.trans c.clear_le_last)
    intro k hk
    have hwritten : remaining (.written key value :: chronicle) k.content =
        if k.content = l.content then value else remaining chronicle k.content := by
      refine if_congr ?_ rfl rfl
      rw [Value.normal?_of_key? hkey, Option.some.injEq, eq_comm]
    rw [hrewritten k hk, remaining_instant, hwritten, hbefore k hk, remaining_instant]
    by_cases hcontent : k.content = l.content
    · simp only [if_pos hcontent]
      exact if_congr (kept_congr hcontent.symm value) rfl rfl
    · simp only [if_neg hcontent]

/-- After a write that fails. -/
theorem store_error (h : t.Follows hash m chronicle) (hs : t.Sound hash m)
    (hhash : Value.RespectsEq hash) (hle : m ≤ c.clear) (hvalueNamed : value.Named m.fresh)
    (hsize : t.array.size ≤ 2 ^ 31) {e : Error}
    (hstore : t.store hash c key value = (.error e, u)) :
    u.Follows hash c.last (.instant t.mode c.last.alive :: chronicle) := by
  have hbefore := h.wait hs hhash (hle.trans c.clear_le_last)
  have hsame := hs.same_of_store_error hle hhash hvalueNamed hsize hstore
  intro k hk
  rw [hsame k hk, hbefore k hk]

/-- After an enumeration step. -/
theorem next (h : t.Follows hash m chronicle) {e : Option (Value × Value)}
    (hnext : t.next (m.context hash) key = .ok (e, u)) : u.Follows hash m chronicle := by
  rcases next_table hnext with rfl | rfl
  · exact h
  · exact h

/-- After a change of the weak mode. -/
theorem setMode (h : t.Follows hash m chronicle) (hs : t.Sound hash m)
    (hhash : Value.RespectsEq hash) (hsize : t.array.size ≤ 2 ^ 31) {mode : WeakMode}
    (hset : t.setMode (m.context hash) mode = .ok u) :
    u.Follows hash m (.instant mode m.alive :: chronicle) := by
  intro k hk
  rw [remaining_instant, ← h k hk]
  rcases hs.setMode_cases hhash hsize mode with ⟨hmode, hok⟩ | ⟨herror, -⟩ | ⟨w, hok, -, hrebuilt⟩
  · rw [hset] at hok
    cases hok
    rw [hmode]
    exact hs.get_later (le_refl m) hhash hk
  · rw [hset] at herror
    cases herror
  · rw [hset] at hok
    cases hok
    exact hrebuilt.values k hk

end Follows

/-- In a regular life the values of a table are those of its chronicle. -/
theorem Life.follows (h : Life hash hint true m t chronicle) (hhash : Value.RespectsEq hash) :
    t.Follows hash m chronicle := by
  induction h with
  | new m =>
    intro k _
    exact get_withHashSize _ hint k
  | wait h hle ih => exact ih.wait (Life.reaches h |>.sound hhash).1 hhash hle
  | stored h hsize hle hnamed hvalueNamed hstore ih =>
    exact ih.store (Life.reaches h |>.sound hhash).1 hhash hle hnamed hvalueNamed (hsize rfl) hstore
  | notStored h hsize hle _ hvalueNamed hstore ih =>
    exact ih.store_error (Life.reaches h |>.sound hhash).1 hhash hle hvalueNamed (hsize rfl) hstore
  | next _ hnext ih => exact ih.next hnext
  | @setMetatable _ n t u _ metatable _ h hsize hle hset ih =>
    have hs := (Life.reaches h |>.sound hhash).1
    have hbefore : Follows hash n { t with metatable } _ := ih.wait hs hhash hle
    exact hbefore.setMode ((hs.later hle).withMetatable metatable) hhash (hsize rfl) hset
  | refused _ hregular => cases hregular

namespace Life

variable {later : List Happening}

/-- Values are written under keys only. -/
theorem normal?_ne_none (h : Life hash hint regular m t chronicle)
    (hwritten : .written key value ∈ chronicle) : key.normal? ≠ none := by
  induction h with
  | new => cases hwritten
  | wait _ _ ih => exact ih (by simpa using hwritten)
  | stored _ _ _ _ _ hstore ih =>
    rcases List.mem_cons.mp hwritten with heq | hmem
    · cases heq
    · rcases List.mem_cons.mp hmem with heq | hmem
      · cases heq
        intro hnone
        have hkey : key.key? = none := Option.map_eq_none_iff.mp hnone
        rw [Table.store, storedKey, hkey] at hstore
        cases hstore
      · exact ih hmem
  | notStored _ _ _ _ _ _ ih => exact ih (by simpa using hwritten)
  | next _ _ ih => exact ih hwritten
  | setMetatable _ _ _ _ ih => exact ih (by simpa using hwritten)
  | refused _ _ _ _ ih => exact ih (by simpa using hwritten)

/-- A look-up finds what survives. -/
theorem get_eq_iff (h : Life hash hint true m t chronicle) (hhash : Value.RespectsEq hash)
    (key : Value) {v : Value} (hv : v ≠ .nil) :
    t.get (m.context hash) key = v ↔ Survives chronicle key v := by
  cases hkey : key.key? with
  | none =>
    rw [get_of_key?_none _ _ hkey]
    refine iff_of_false (fun hnil ↦ hv hnil.symm) ?_
    rintro ⟨later, k, earlier, rfl, hk, -⟩
    have hwritten := h.normal?_ne_none (List.mem_append.mpr (.inr List.mem_cons_self))
    rw [hk, Value.normal?, hkey] at hwritten
    exact hwritten rfl
  | some k =>
    have hk := Value.stored_of_key? hkey
    have hnormal := Value.normal?_of_key? hkey
    rw [get_of_key? _ _ hkey, h.follows hhash k hk,
      remaining_eq_iff (Value.normal?_idem hnormal) hv, survives_iff_of_normal? hnormal]

/-- A value that was spared since is still there. -/
theorem get_of_spared (h : Life hash hint true m t chronicle) (hhash : Value.RespectsEq hash)
    (hu : Life hash hint true n u (later ++ chronicle))
    (hunwritten : ∀ k value, .written k value ∈ later → k.normal? ≠ key.normal?)
    (hne : t.get (m.context hash) key ≠ .nil)
    (hspared : ∀ happening ∈ later, happening.Spares key (t.get (m.context hash) key)) :
    u.get (n.context hash) key = t.get (m.context hash) key := by
  rw [hu.get_eq_iff hhash key hne, survives_append_iff hunwritten]
  exact ⟨hspared, (h.get_eq_iff hhash key hne).mp rfl⟩

/-- Without a write nothing appears. -/
theorem get_eq_nil (h : Life hash hint true m t chronicle) (hhash : Value.RespectsEq hash)
    (hu : Life hash hint true n u (later ++ chronicle))
    (hunwritten : ∀ k value, .written k value ∈ later → k.normal? ≠ key.normal?)
    (hnil : t.get (m.context hash) key = .nil) : u.get (n.context hash) key = .nil := by
  by_contra hne
  have hsurvives := (hu.get_eq_iff hhash key hne).mp rfl
  rw [survives_append_iff hunwritten] at hsurvives
  rw [(h.get_eq_iff hhash key hne).mpr hsurvives.2] at hnil
  exact hne hnil

end Life

/-! ## What tables report -/

/-- A table shows exactly what survives in its chronicle. -/
structure Remembers (hash : Value → UInt64) (hint : Nat) (m : Moment) (t : Table)
    (chronicle : List Happening) : Prop where
  reads : ∀ key v : Value, v ≠ .nil →
    (t.get (m.context hash) key = v ↔ Survives chronicle key v)
  /-- One list of the survivors is what all listings report. -/
  lists : ∃ survivors : List (Value × Value),
    (∀ key v : Value, v ≠ .nil →
      ((∃ k, (k, v) ∈ survivors ∧ k.normal? = key.normal?) ↔ Survives chronicle key v)) ∧
    (∀ e ∈ survivors, e.2 ≠ .nil) ∧
    (survivors.Pairwise fun e f ↦ e.1.normal? ≠ f.1.normal?) ∧
    t.entries (m.context hash) = survivors ∧
    t.keys (m.context hash) = survivors.map Prod.fst ∧
    t.keyCount (m.context hash) = survivors.length ∧
    ∀ limit, ∃ u, t.traverse (m.context hash) limit .nil =
      .ok ⟨survivors.take limit, survivors.length < limit, u⟩
  /-- What is gone comes back by a write only. -/
  gone : ∀ n u later key, Life hash hint true n u (later ++ chronicle) →
    (∀ k value, .written k value ∈ later → k.normal? ≠ key.normal?) →
    t.get (m.context hash) key = .nil → u.get (n.context hash) key = .nil
  /-- Entries of strings and inline values are never cleared. -/
  strings : ∀ n u later key, Life hash hint true n u (later ++ chronicle) →
    (∀ k value, .written k value ∈ later → k.normal? ≠ key.normal?) →
    (key.ref? = none ∨ key.isString = true) →
    ((t.get (m.context hash) key).ref? = none ∨ (t.get (m.context hash) key).isString = true) →
    u.get (n.context hash) key = t.get (m.context hash) key
  /-- A change of the weak mode drops no entry whose key and value are alive. -/
  unharmed : t.array.size ≤ 2 ^ 31 → ∀ n, m ≤ n → ∀ metatable mode u,
    Table.setMode (n.context hash) { t with metatable } mode = .ok u →
    ∀ key : Value, key.present n.alive = true →
      (t.get (m.context hash) key).present n.alive = true →
      u.get (n.context hash) key = t.get (m.context hash) key
  changeable : t.Changeable hash m

/-- Whatever happens to a table, its look-ups and listings show the last value written under each
key, if it has endured since. -/
theorem Life.remembers_survivors (hhash : Value.RespectsEq hash)
    (h : Life hash hint true m t chronicle) : t.Remembers hash hint m chronicle := by
  have hs := (h.reaches.sound hhash).1
  have hsize : t.array.size < 2 ^ 63 := h.reaches.size_lt hhash
  refine ⟨fun key v hv ↦ h.get_eq_iff hhash key hv, ?_, ?_, ?_, ?_, hs.changeable hhash⟩
  · refine ⟨t.entries (m.context hash), fun key v hv ↦ ?_, fun e he ↦ (hs.insertable he).ne_nil,
      hs.entries_pairwise_normal? hsize, rfl, rfl, rfl, fun limit ↦ ?_⟩
    · rw [← hs.get_eq_iff_normal? hhash hsize key hv, h.get_eq_iff hhash key hv]
    · obtain ⟨u, hu, -⟩ := hs.traverse_nil hhash hsize limit
      exact ⟨u, hu⟩
  · intro n u later key hu hunwritten hnil
    exact h.get_eq_nil hhash hu hunwritten hnil
  · intro n u later key hu hunwritten hkey hvalue
    by_cases hnil : t.get (m.context hash) key = .nil
    · rw [hnil]
      exact h.get_eq_nil hhash hu hunwritten hnil
    · refine h.get_of_spared hhash hu hunwritten hnil fun happening hmem ↦ ?_
      cases happening with
      | written k value => exact hunwritten k value hmem
      | instant mode alive =>
        exact ⟨hkey.imp_right .inl, hvalue.imp_right .inl⟩
  · intro hbound n hle metatable mode u hset key hkey hvalue
    have hu : Life hash hint true n u
        ([.instant mode n.alive, .instant t.mode n.alive] ++ chronicle) :=
      h.setMetatable (fun _ ↦ hbound) hle hset
    have hunwritten : ∀ k value,
        .written k value ∈ [Happening.instant mode n.alive, .instant t.mode n.alive] →
        k.normal? ≠ key.normal? := by
      intro k value hmem
      simp at hmem
    by_cases hnil : t.get (m.context hash) key = .nil
    · rw [hnil]
      exact h.get_eq_nil hhash hu hunwritten hnil
    · refine h.get_of_spared hhash hu hunwritten hnil fun happening hmem ↦ ?_
      rcases List.mem_cons.mp hmem with rfl | hmem
      · exact ⟨.inr (.inr (.inr hkey)), .inr (.inr (.inr hvalue))⟩
      · rcases List.mem_singleton.mp hmem with rfl
        exact ⟨.inr (.inr (.inr hkey)), .inr (.inr (.inr hvalue))⟩

/-- In a table with weak keys and values an entry is cleared with its key, and that of a string
stays. -/
theorem remembers_survivors_of_release :
    ∃ n t chronicle, Life Value.hash 0 true n t chronicle ∧ t.arena.live = 2 ∧
      t.get (n.context Value.hash) (.str ⟨[97], 1⟩) = .bool true ∧
      Survives chronicle (.str ⟨[97], 1⟩) (.bool true) ∧
      t.get (n.context Value.hash) (.table 0) = .nil ∧
      ∀ v, v ≠ .nil → ¬ Survives chronicle (.table 0) v := by
  let m : Moment := .allAlive 2
  let n : Moment := ⟨fun r ↦ r = 1, 2, fun r hr ↦ by rw [of_decide_eq_true hr]; decide⟩
  have hmn : m ≤ n := Moment.allAlive_le (Nat.le_refl 2)
  let mode : WeakMode := ⟨true, true⟩
  have hset : Table.setMode (m.context Value.hash) { withHashSize 0 with metatable := none } mode =
      .ok { withHashSize 0 with mode } := rfl
  have hdone : ∀ {answer : Except Error Unit × Table}, answer.1.isOk = true →
      answer = (.ok (), answer.2) := by
    rintro ⟨_ | ⟨⟩, u⟩ hok
    · cases hok
    · rfl
  let write (t : Table) (key value : Value) := t.store Value.hash (.still m) key value
  let first := write { withHashSize 0 with mode } (.table 0) (.int 5)
  let t := (write first.2 (.str ⟨[97], 1⟩) (.bool true)).2
  have hfirst : first = (.ok (), first.2) := hdone (by decide +kernel)
  have hsecond : write first.2 (.str ⟨[97], 1⟩) (.bool true) = (.ok (), t) :=
    hdone (by decide +kernel)
  have hweak : Life Value.hash 0 true m _ _ :=
    (Life.new m).setMetatable (fun _ ↦ by decide) (le_refl m) hset
  have hone := hweak.stored (c := .still m) (fun _ ↦ by decide) (le_refl m)
    (Value.named_of_ref? rfl Nat.two_pos) (Value.named_of_inline rfl _) hfirst
  have ht := (hone.stored (c := .still m) (fun _ ↦ by decide +kernel) (le_refl m)
    (Value.named_of_ref? rfl Nat.one_lt_two) (Value.named_of_inline rfl _) hsecond).wait hmn
  have hremembers := ht.remembers_survivors Value.rawEq_hash
  have hcleared : t.get (n.context Value.hash) (.table 0) = .nil := by decide +kernel
  have hstays : t.get (n.context Value.hash) (.str ⟨[97], 1⟩) = .bool true := by decide +kernel
  refine ⟨n, t, _, ht, by decide +kernel, hstays,
    (hremembers.reads _ (.bool true) nofun).mp hstays, hcleared, fun v hv hsurvives ↦ ?_⟩
  rw [(hremembers.reads _ v hv).mpr hsurvives] at hcleared
  exact hv hcleared

/-- The life in which values were added one after the other. -/
theorem exists_life_appended (hash : Value → UInt64) (hint : Nat) (regular : Bool) (m : Moment)
    {l : Nat} (hvalue : value ≠ .nil) (hnamed : value.Named m.fresh)
    (hl : l ≤ 2 ^ maxArrayBits + 1) :
    ∃ chronicle, Life hash hint regular m (appended hint l value) chronicle := by
  induction l with
  | zero => exact ⟨_, .new m⟩
  | succ l ih =>
    obtain ⟨chronicle, hlife⟩ := ih (Nat.le_of_succ_le hl)
    have hsize : (appended hint l value).array.size ≤ 2 ^ 31 :=
      (size_array_appended hint l value).trans_le (Nat.le_of_succ_le_succ hl)
    exact ⟨_, hlife.stored (c := .still m) (fun _ ↦ hsize) (le_refl m)
      (Value.named_of_inline rfl _) hnamed
      (store_appended hash hint (.still m) (hl.trans_lt (by decide)) hvalue)⟩

/-- A table as a key of weak keys is gone when its cell is released, whatever is in the array
part. -/
theorem get_of_weak_key (array : Array Value) (m : Moment) :
    ∃ u, store (fun _ ↦ 0) (.still m) { withHashSize 4 with array, mode := ⟨true, true⟩ }
        (.table 0) (.bool true) = (.ok (), u) ∧
      u.array = array ∧ u.mode = ⟨true, true⟩ ∧
      u.get ⟨fun _ ↦ 0, fun _ ↦ false⟩ (.table 0) = .nil :=
  ⟨_, rfl, rfl, rfl, rfl⟩

/-- There are too many values for the keys and values to become weak, and they are weak all the same
when a table is stored as a key. The change that takes back the weakness of the keys is refused too:
when the cell of the key is released, the entry is gone although the mode in force has strong
keys. -/
theorem refused_modes_lose_key :
    ∃ n t chronicle, Life (fun _ ↦ 0) 4 false n t chronicle ∧ t.mode = ⟨false, true⟩ ∧
      Survives chronicle (.table 0) (.bool true) ∧
      t.get (n.context fun _ ↦ 0) (.table 0) = .nil := by
  let m : Moment := .allAlive 1
  let n : Moment := ⟨fun _ ↦ false, 1, fun r hr ↦ by cases hr⟩
  have hmn : m ≤ n := Moment.allAlive_le (Nat.le_refl 1)
  have hvalue : Value.bool true ≠ .nil := fun h ↦ by cases h
  have hnamed : (Value.table 0).Named m.fresh := Value.named_of_ref? rfl Nat.one_pos
  have hinline : (Value.bool true).Named m.fresh := Value.named_of_inline rfl _
  have hlarge : 2 ^ maxHashBits < 2 ^ maxHashBits + 1 := Nat.lt_succ_self _
  have hwithin : 2 ^ maxHashBits + 1 ≤ 2 ^ 31 := by decide
  obtain ⟨chronicle, hlife⟩ := exists_life_appended (fun _ ↦ 0) 4 false m hvalue hinline
    (Nat.le_succ_of_le hwithin)
  let array := (appended 4 (2 ^ maxHashBits + 1) (.bool true)).array
  have hrefused := setMode_of_replicate (t := appended 4 _ _) (m.context fun _ ↦ 0) rfl hvalue
    hlarge hwithin (rfl : (⟨true, true⟩ : WeakMode).values = true) fun h ↦ by cases h
  have hweak : Life _ 4 false m { withHashSize 4 with array, mode := ⟨true, true⟩ } _ :=
    hlife.refused rfl (le_refl m) hrefused
  obtain ⟨u, hstore, harray, hmode, hgone⟩ := get_of_weak_key array m
  have hstored := hweak.stored (c := .still m) (fun h ↦ by cases h) (le_refl m) hnamed hinline
    hstore
  have hrefused' := setMode_of_replicate (m.context fun _ ↦ 0) harray hvalue hlarge hwithin
    (rfl : (⟨false, true⟩ : WeakMode).values = true) fun h ↦ by cases h.trans hmode
  have hstrong : Life _ 4 false m { u with mode := ⟨false, true⟩ } _ :=
    hstored.refused rfl (le_refl m) hrefused'
  refine ⟨n, _, _, hstrong.wait hmn, rfl, ?_, hgone⟩
  -- At every instant the mode in force has strong keys or the cell of the key is alive.
  have hspares : ∀ (mode : WeakMode) (alive : Ref → Bool), mode.keys = false ∨ alive 0 = true →
      (Happening.instant mode alive).Spares (.table 0) (.bool true) :=
    fun _ _ h ↦ ⟨.inr (.inr h), .inl rfl⟩
  refine ⟨[_, _, _, _], .table 0, _, rfl, rfl, ?_⟩
  simp only [List.forall_mem_cons]
  exact ⟨hspares _ _ (.inl rfl), hspares _ _ (.inl rfl), hspares _ _ (.inr rfl),
    hspares _ _ (.inr rfl), fun _ h ↦ by cases h⟩

end Table

end LuaData
