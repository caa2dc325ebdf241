import Mathlib.Logic.Relation
import LuaData.Proofs.Importing

/-!
# Exporting values

`Exports` says which JSON value belongs to a value of an instance: a table that is a list becomes an
array, and another table with keys that have texts becomes an object. What exports is a tree of
finite depth, so that no table contains itself; `Exports.toJson_eq` says that the conversion then
succeeds and gives the JSON value that belongs to the value.
-/

namespace LuaData

variable {σ : Type} {s : State σ} {v : Value} {j : Json}

namespace State

/-- A list of conversions that all succeed. -/
theorem mapM_eq_ok {α β : Type} {g : α → Except Error β} {f : α → β} {l : List α}
    (h : ∀ a ∈ l, g a = .ok (f a)) : l.mapM g = .ok (l.map f) := by
  induction l with
  | nil => rfl
  | cons a l ih =>
    rw [List.mapM_cons, h a List.mem_cons_self, ih fun b hb ↦ h b (List.mem_cons_of_mem _ hb)]
    rfl

/-- A list of optional conversions that all succeed. -/
theorem filterMapM_eq_ok {α β : Type} {g : α → Except Error (Option β)} {f : α → Option β}
    {l : List α} (h : ∀ a ∈ l, g a = .ok (f a)) : l.filterMapM g = .ok (l.filterMap f) := by
  induction l with
  | nil => rfl
  | cons a l ih =>
    rw [List.filterMapM_cons, h a List.mem_cons_self,
      ih fun b hb ↦ h b (List.mem_cons_of_mem _ hb), List.filterMap_cons]
    cases f a <;> rfl

/-- What comes before a result that is returned succeeds. -/
theorem bind_pure_eq_ok {α β : Type} {x : Except Error α} {f : α → β} {b : β}
    (h : (do return f (← x)) = (.ok b : Except Error β)) : ∃ a, x = .ok a ∧ f a = b := by
  cases x with
  | error e => cases h
  | ok a => exact ⟨a, rfl, Except.ok.inj h⟩

/-- All conversions of a list of conversions that succeeds succeed. -/
theorem exists_ok_of_mapM {α β : Type} {g : α → Except Error β} {l : List α} {bs : List β}
    (h : l.mapM g = .ok bs) : ∀ a ∈ l, ∃ b, g a = .ok b := by
  induction l generalizing bs with
  | nil => exact nofun
  | cons a l ih =>
    rw [List.mapM_cons] at h
    cases ha : g a with
    | error e =>
      rw [ha] at h
      cases h
    | ok b =>
      cases hl : l.mapM g with
      | error e =>
        rw [ha, hl] at h
        cases h
      | ok rest =>
        intro c hc
        rcases List.mem_cons.mp hc with rfl | hc
        · exact ⟨b, ha⟩
        · exact ih hl c hc

/-- All conversions of a list of optional conversions that succeeds succeed. -/
theorem exists_ok_of_filterMapM {α β : Type} {g : α → Except Error (Option β)} {l : List α}
    {bs : List β} (h : l.filterMapM g = .ok bs) : ∀ a ∈ l, ∃ b, g a = .ok b := by
  induction l generalizing bs with
  | nil => exact nofun
  | cons a l ih =>
    rw [List.filterMapM_cons] at h
    cases ha : g a with
    | error e =>
      rw [ha] at h
      cases h
    | ok b =>
      cases hl : l.filterMapM g with
      | error e =>
        rw [ha, hl] at h
        cases b <;> cases h
      | ok rest =>
        intro c hc
        rcases List.mem_cons.mp hc with rfl | hc
        · exact ⟨b, ha⟩
        · exact ih hl c hc

/-- Different names below a bound are no more than the bound. -/
theorem length_le_of_named {path : List Ref} {bound : Nat} (hnodup : path.Nodup)
    (hnamed : ∀ q ∈ path, q < bound) : path.length ≤ bound := by
  have hsubset : path ⊆ List.range bound := fun q hq ↦ List.mem_range.mpr (hnamed q hq)
  have hlength := (List.subperm_of_subset hnodup hsubset).length_le
  rwa [List.length_range] at hlength

variable [Hashing]

/-- The table of a cell is well formed. -/
structure HasTable (s : State σ) (r : Ref) (t : Table) : Prop where
  cell : s.heap.table? r = some t
  sound : t.Sound Value.hash s.moment
  size : t.array.size ≤ 2 ^ 62

/-- The members that the entries of a table become, with a JSON value for each key. -/
def membersOf (s : State σ) (t : Table) (f : Value → Json) : List (List Char × Json) :=
  (t.entries s.context).filterMap fun e ↦ e.1.memberKey?.map fun key ↦ (key, f e.1)

/-- The JSON value belongs to the value. -/
inductive Exports (s : State σ) : Value → Json → Prop
  | nil : Exports s .nil .null
  | bool (b : Bool) : Exports s (.bool b) (.bool b)
  | int (i : Int64) : Exports s (.int i) (.int i.toInt)
  | float {x : Double} (hx : x.isFinite = true) : Exports s (.float x) (.float x)
  | str (str : Str) : Exports s (.str str) (.string (Utf8.decodeLossy str.bytes))
  | list {r : Ref} {t : Table} {n : Nat} (f : Nat → Json) (ht : s.HasTable r t)
      (hlist : t.IsList s.context n)
      (hitems : ∀ i < n, Exports s (t.get s.context (.int (Int64.ofNat (i + 1)))) (f i)) :
      Exports s (.table r) (.array ((List.range n).map f))
  | record {r : Ref} {t : Table} (f : Value → Json) (ht : s.HasTable r t)
      (hlist : ∀ n, ¬ t.IsList s.context n)
      (hkeys : ∀ e ∈ t.entries s.context, ∃ key, e.1.memberKey? = some key)
      (hmembers : ∀ e ∈ t.entries s.context, Exports s e.2 (f e.1)) :
      Exports s (.table r) (.object (Json.ofMembers (s.membersOf t f)))

/-- The first table is a value of the second one. -/
def Child (s : State σ) (q r : Ref) : Prop :=
  ∃ t, s.heap.table? r = some t ∧ ∃ e ∈ t.entries s.context, e.2 = .table q

namespace HasTable

variable {r : Ref} {t : Table} {e : Value × Value}

/-- What is listed is found. -/
theorem get_of_mem (ht : s.HasTable r t) (he : e ∈ t.entries s.context) :
    t.get s.context e.1 = e.2 ∧ e.2 ≠ .nil := by
  have hsize := ht.size
  have hne := (ht.sound.insertable he).ne_nil
  exact ⟨(ht.sound.get_eq_iff_normal? Value.rawEq_hash (by omega) e.1 hne).mpr ⟨e.1, he, rfl⟩, hne⟩

/-- What is found is listed, under a key of the same normal form. -/
theorem exists_mem (ht : s.HasTable r t) {key : Value} (hne : t.get s.context key ≠ .nil) :
    ∃ k, (k, t.get s.context key) ∈ t.entries s.context ∧ k.normal? = key.normal? := by
  have hsize := ht.size
  exact (ht.sound.get_eq_iff_normal? Value.rawEq_hash (by omega) key hne).mp rfl

/-- A value of a list is the value of an integer. -/
theorem get_of_isList (ht : s.HasTable r t) {n : Nat} (hlist : t.IsList s.context n)
    (he : e ∈ t.entries s.context) :
    ∃ i < n, e.2 = t.get s.context (.int (Int64.ofNat (i + 1))) := by
  obtain ⟨hget, hne⟩ := ht.get_of_mem he
  obtain ⟨i, hi, hnormal⟩ := (hlist e.1).mp (hget ▸ hne)
  refine ⟨i, hi, hget ▸ ?_⟩
  exact ht.sound.get_congr_normal? Value.rawEq_hash ht.size
    (hnormal.trans (Value.normal?_int _).symm)

end HasTable

/-- Only nil exports as null. -/
theorem Exports.isNull_eq (h : s.Exports v j) : j.isNull = v.isNil := by
  cases h <;> rfl

/-- A table that exports is not a value of itself, nor of the tables in it. -/
theorem Exports.acc (h : s.Exports v j) : ∀ r, v = .table r → Acc s.Child r := by
  induction h with
  | list f ht hlist _ ih =>
    intro r hr
    cases hr
    refine .intro _ fun q hq ↦ ?_
    obtain ⟨u, hu, e, he, heq⟩ := hq
    obtain rfl := Option.some.inj (ht.cell.symm.trans hu)
    obtain ⟨i, hi, hvalue⟩ := ht.get_of_isList hlist he
    exact ih i hi q (hvalue ▸ heq)
  | record f ht _ _ _ ih =>
    intro r hr
    cases hr
    refine .intro _ fun q hq ↦ ?_
    obtain ⟨u, hu, e, he, heq⟩ := hq
    obtain rfl := Option.some.inj (ht.cell.symm.trans hu)
    exact ih e he q heq
  | _ => exact nofun

/-- Where a conversion stands: the tables around the value contain it, and all of them are
different, so that there is depth left. -/
structure Within (s : State σ) (depth : Nat) (path : List Ref) (v : Value) : Prop where
  above : ∀ q ∈ path, ∀ r, v = .table r → Relation.TransGen s.Child r q
  nodup : path.Nodup
  named : ∀ q ∈ path, q < s.heap.cells.size
  depth_eq : depth + path.length = s.heap.cells.size + 1

namespace Within

variable {depth : Nat} {path : List Ref} {r : Ref} {t : Table} {e : Value × Value}

/-- There are no more tables around a value than there are cells. -/
theorem length_le (h : s.Within depth path v) : path.length ≤ s.heap.cells.size :=
  length_le_of_named h.nodup h.named

/-- A table is converted in a place where it is not around itself, and its values within it. -/
theorem table (h : s.Within depth path (.table r)) (ht : s.HasTable r t) (hacc : Acc s.Child r) :
    ∃ rest, depth = rest + 1 ∧ r ∉ path ∧
      ∀ e ∈ t.entries s.context, s.Within rest (r :: path) e.2 := by
  have hlength := h.length_le
  have hdepth := h.depth_eq
  have hpath : r ∉ path := by
    intro hr
    exact hacc.transGen.rec (motive := fun q _ ↦ ¬ Relation.TransGen s.Child q q)
      (fun q _ ih hself ↦ ih q hself hself) (h.above r hr r rfl)
  refine ⟨depth - 1, by omega, hpath, fun e he ↦ ⟨fun q hq p hp ↦ ?_, ?_, fun q hq ↦ ?_, ?_⟩⟩
  · have hchild : s.Child p r := ⟨t, ht.cell, e, he, hp⟩
    rcases List.mem_cons.mp hq with rfl | hq
    · exact .single hchild
    · exact .head hchild (h.above q hq r rfl)
  · exact List.nodup_cons.mpr ⟨hpath, h.nodup⟩
  · rcases List.mem_cons.mp hq with rfl | hq
    · exact Heap.lt_fresh_of_cell? (Heap.cell?_of_table? ht.cell)
    · exact h.named q hq
  · rw [List.length_cons]
    omega

end Within

/-- The conversion of a value in its place. -/
theorem Exports.jsonWithin_eq (h : s.Exports v j) {depth : Nat} {path : List Ref}
    (hwithin : s.Within depth path v) : s.jsonWithin depth path v = .ok j := by
  induction h generalizing depth path with
  | nil => rw [jsonWithin]
  | bool b => rw [jsonWithin]
  | int i => rw [jsonWithin]
  | float hx => rw [jsonWithin, if_pos hx]
  | str str => rw [jsonWithin]
  | @list r t n f ht hlist hitems ih =>
    obtain ⟨rest, rfl, hpath, hchildren⟩ :=
      hwithin.table ht ((Exports.list f ht hlist hitems).acc r rfl)
    have hlength : t.listLength? s.context = some n :=
      (ht.sound.listLength?_eq_some_iff Value.rawEq_hash ht.size).mpr hlist
    have hconvert : ∀ i ∈ List.range n, s.jsonWithin rest (r :: path)
        (t.getInt s.context (Int64.ofNat (i + 1))) = .ok (f i) := by
      intro i hi
      have hi' := List.mem_range.mp hi
      have hne := (hlist (.int (Int64.ofNat (i + 1)))).mpr ⟨i, hi', rfl⟩
      obtain ⟨k, hmem, -⟩ := ht.exists_mem hne
      exact ih i hi' (hchildren _ hmem)
    rw [jsonWithin, if_neg hpath, table_eq ht.cell]
    simp only [hlength, mapM_eq_ok hconvert]
    rfl
  | @record r t f ht hlist hkeys hmembers ih =>
    obtain ⟨rest, rfl, hpath, hchildren⟩ :=
      hwithin.table ht ((Exports.record f ht hlist hkeys hmembers).acc r rfl)
    have hlength : t.listLength? s.context = none := by
      rw [Option.eq_none_iff_forall_ne_some]
      intro n hn
      exact hlist n ((ht.sound.listLength?_eq_some_iff Value.rawEq_hash ht.size).mp hn)
    rw [jsonWithin, if_neg hpath, table_eq ht.cell]
    simp only [hlength]
    have hobject : ∀ members : Except Error (List (List Char × Json)),
        members = .ok (s.membersOf t f) → (do return .object (Json.ofMembers (← members))) =
          (.ok (.object (Json.ofMembers (s.membersOf t f))) : Except Error Json) := by
      intro members hmembers
      rw [hmembers]
      rfl
    refine hobject _ (filterMapM_eq_ok fun e he ↦ ?_)
    obtain ⟨key, hkey⟩ := hkeys e he
    simp only [hkey, ih e he (hchildren e he)]
    rfl

/-- A value that exports is converted to the JSON value that belongs to it. -/
theorem Exports.toJson_eq (h : s.Exports v j) : s.toJson v = .ok j :=
  h.jsonWithin_eq ⟨nofun, List.nodup_nil, nofun, rfl⟩

/-- The members of a table are different if its keys have different texts. -/
theorem HasTable.membersOf_pairwise {r : Ref} {t : Table} (ht : s.HasTable r t) (f : Value → Json)
    (hkeys : ∀ e ∈ t.entries s.context, ∀ e' ∈ t.entries s.context,
      e.1.memberKey? = e'.1.memberKey? → e.1.normal? = e'.1.normal?) :
    (s.membersOf t f).Pairwise fun m n ↦ m.1 ≠ n.1 := by
  rw [membersOf, List.pairwise_filterMap]
  have hsize := ht.size
  refine (ht.sound.entries_pairwise_normal? (by omega)).imp_of_mem ?_
  intro e e' he he' hne m hm n hn heq
  obtain ⟨text, htext, rfl⟩ := Option.map_eq_some_iff.mp hm
  obtain ⟨text', htext', rfl⟩ := Option.map_eq_some_iff.mp hn
  refine hne (hkeys e he e' he' ?_)
  rw [htext, htext']
  exact congrArg some heq

/-- A table with other keys than those of a list exports as an object if its entries and the members
of the object belong together one by one. -/
theorem exports_object {r : Ref} {t : Table} (ht : s.HasTable r t)
    (hlist : ∀ n, ¬ t.IsList s.context n) {members : List (List Char × Json)}
    (hsorted : Json.Sorted members)
    (hentry : ∀ e ∈ t.entries s.context, ∃ m ∈ members, e.1.memberKey? = some m.1 ∧
      s.Exports e.2 m.2)
    (hmember : ∀ m ∈ members, ∃ e ∈ t.entries s.context, e.1.memberKey? = some m.1)
    (hkeys : ∀ e ∈ t.entries s.context, ∀ e' ∈ t.entries s.context,
      e.1.memberKey? = e'.1.memberKey? → e.1.normal? = e'.1.normal?) :
    s.Exports (.table r) (.object members) := by
  let f : Value → Json := fun key ↦
    (key.memberKey?.bind fun text ↦ members.lookup text).getD .null
  have hf : ∀ e ∈ t.entries s.context, ∃ m ∈ members, e.1.memberKey? = some m.1 ∧ f e.1 = m.2 ∧
      s.Exports e.2 (f e.1) := by
    intro e he
    obtain ⟨m, hm, hkey, hexports⟩ := hentry e he
    have hfe : f e.1 = m.2 := by
      simp only [f, hkey, Option.bind_some, Json.lookup_of_mem hsorted.ne hm, Option.getD_some]
    exact ⟨m, hm, hkey, hfe, hfe ▸ hexports⟩
  have hmem : ∀ m, m ∈ s.membersOf t f ↔ m ∈ members := by
    intro m
    rw [membersOf, List.mem_filterMap]
    constructor
    · intro h
      obtain ⟨e, he, heq⟩ := h
      obtain ⟨n, hn, hkey, hfe, -⟩ := hf e he
      rw [hkey, Option.map_some, hfe] at heq
      rwa [← Option.some.inj heq]
    · intro hm
      obtain ⟨e, he, hkey⟩ := hmember m hm
      obtain ⟨n, hn, hkey', hfe, -⟩ := hf e he
      -- Both members have the key of the entry.
      have hnm : n.1 = m.1 := Option.some.inj (hkey'.symm.trans hkey)
      have hvalue : n.2 = m.2 := by
        have hn' := Json.lookup_of_mem hsorted.ne hn
        rw [hnm, Json.lookup_of_mem hsorted.ne hm] at hn'
        exact (Option.some.inj hn').symm
      refine ⟨e, he, ?_⟩
      rw [hkey, Option.map_some, hfe, hvalue]
  rw [← Json.ofMembers_eq (ht.membersOf_pairwise f hkeys) hsorted hmem]
  refine .record f ht hlist (fun e he ↦ ?_) fun e he ↦ ?_
  · obtain ⟨m, -, hkey, -⟩ := hf e he
    exact ⟨m.1, hkey⟩
  · obtain ⟨m, -, -, -, hexports⟩ := hf e he
    exact hexports

/-- A table exports as an object if its keys are those of the members, each with its own text. -/
theorem exports_keyed {ι : Type} {I : ι → Prop} {key : ι → Value} {text : ι → List Char}
    {item : ι → Json} {r : Ref} {t : Table} (ht : s.HasTable r t)
    (hlist : ∀ n, ¬ t.IsList s.context n) {members : List (List Char × Json)}
    (hsorted : Json.Sorted members) (hmem : ∀ m, m ∈ members ↔ ∃ i, I i ∧ m = (text i, item i))
    (hkey : ∀ i, (key i).normal? = some (key i))
    (hkeys : ∀ k, t.get s.context k ≠ .nil ↔ ∃ i, I i ∧ k.normal? = some (key i))
    (htext : ∀ i, I i → ∀ k : Value, k.Stored → k.normal? = some (key i) →
      k.memberKey? = some (text i))
    (hinj : ∀ i j, text i = text j → key i = key j)
    (hvalues : ∀ i, I i → s.Exports (t.get s.context (key i)) (item i)) :
    s.Exports (.table r) (.object members) := by
  have hentry : ∀ e ∈ t.entries s.context, ∃ i, I i ∧ e.1.normal? = some (key i) ∧
      e.1.memberKey? = some (text i) := by
    intro e he
    obtain ⟨hget, hne⟩ := ht.get_of_mem he
    obtain ⟨i, hi, hnormal⟩ := (hkeys e.1).mp (hget ▸ hne)
    exact ⟨i, hi, hnormal, htext i hi e.1 (ht.sound.insertable he).stored hnormal⟩
  refine exports_object ht hlist hsorted (fun e he ↦ ?_) (fun m hm ↦ ?_) fun e he e' he' heq ↦ ?_
  · obtain ⟨i, hi, hnormal, hmember⟩ := hentry e he
    refine ⟨_, (hmem _).mpr ⟨i, hi, rfl⟩, hmember, ?_⟩
    have hget : t.get s.context e.1 = t.get s.context (key i) :=
      ht.sound.get_congr_normal? Value.rawEq_hash ht.size (hnormal.trans (hkey i).symm)
    rw [← (ht.get_of_mem he).1, hget]
    exact hvalues i hi
  · obtain ⟨i, hi, rfl⟩ := (hmem m).mp hm
    obtain ⟨k, hk, hnormal⟩ := ht.exists_mem ((hkeys (key i)).mpr ⟨i, hi, hkey i⟩)
    exact ⟨_, hk, htext i hi k (ht.sound.insertable hk).stored (hnormal.trans (hkey i))⟩
  · obtain ⟨i, -, hnormal, hmember⟩ := hentry e he
    obtain ⟨j, -, hnormal', hmember'⟩ := hentry e' he'
    rw [hmember, hmember', Option.some.injEq] at heq
    rw [hnormal, hnormal', hinj i j heq]

end State

end LuaData
