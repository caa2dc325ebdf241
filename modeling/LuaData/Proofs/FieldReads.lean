import LuaData.Proofs.Chains
import LuaData.Proofs.FieldWrites

/-!
# What a read of a field comes to

A read of a field goes from value to value along the `__index` handlers, and stops at a table with
the key, at a function, which is called, or at a value without a handler. `Act.index_resolves` says
what the read comes to in each case. It is exact in the limit: a link below it counts, and a chain
that stops at none of these is too long.
-/

namespace LuaData

variable {σ : Type} {s : State σ} {object key x y f : Value} {r : Ref} {i : Nat}

/-- The first of some results, or nil. -/
theorem Results.first_eq_headD (results : Results) : results.first = results.toList.headD .nil := by
  rw [first, get?, ← List.head?_eq_getElem?, List.headD_eq_head?_getD]

section

variable [Hashing]

/-! ## The chain of a read -/

namespace State

/-- The handler that a read goes on with: that of a value without the key, if it is no function. -/
def indexNext? (s : State σ) (key x : Value) : Option Value :=
  match x with
  | .table r =>
    if (s.rawGet r key).isNil then (s.metamethod? x .index).filter (!·.isFunction) else none
  | _ => (s.metamethod? x .index).filter (!·.isFunction)

/-- The value that is some links along the chain of a read. -/
def indexLink? (s : State σ) (key object : Value) : Nat → Option Value :=
  Chain.link? (s.indexNext? key) object

/-- A value without the key goes on with its handler. -/
theorem Asks.indexNext?_eq (hasks : s.Asks key x) :
    s.indexNext? key x = (s.metamethod? x .index).filter (!·.isFunction) := by
  cases x with
  | table r => rw [indexNext?, hasks r rfl, Value.isNil, if_pos rfl]
  | _ => rfl

/-- The read goes on from a value without the key to a handler that is no function. -/
theorem indexNext?_eq_some_iff : s.indexNext? key x = some y ↔
    s.Asks key x ∧ s.metamethod? x .index = some y ∧ y.isFunction = false := by
  constructor
  · intro h
    have hasks : s.Asks key x := by
      rintro r rfl
      by_contra hne
      rw [indexNext?, Value.isNil_eq_false hne, if_neg Bool.false_ne_true] at h
      cases h
    rw [hasks.indexNext?_eq, Option.filter_eq_some_iff] at h
    exact ⟨hasks, h.1, by simpa using h.2⟩
  · rintro ⟨hasks, hhandler, hfunction⟩
    rw [hasks.indexNext?_eq, hhandler, Option.filter_some_pos (by rw [hfunction]; rfl)]

/-- What the search finds where the chain stops at a table with the key. -/
theorem indexTarget_of_entry (hentry : s.rawGet r key ≠ .nil) (limit : Nat) :
    s.indexTarget key (limit + 1) (.table r) = .found (s.rawGet r key) := by
  rw [indexTarget, Value.isNil_eq_false hentry]
  rfl

/-- The search asks a value without the key for its handler. -/
theorem Asks.indexTarget_succ (hasks : s.Asks key x) (limit : Nat) :
    s.indexTarget key (limit + 1) x =
      match s.metamethod? x .index with
      | some h => if h.isFunction then .handler h x else s.indexTarget key limit h
      | none => if x.table?.isSome then .found .nil else .notIndexable x.kind := by
  cases x with
  | table r =>
    rw [indexTarget, hasks r rfl]
    rfl
  | _ => rfl

/-- The search from a link is what is left of the search from the start. -/
theorem indexTarget_of_link (hlink : s.indexLink? key object i = some x) (limit : Nat) :
    s.indexTarget key (i + limit) object = s.indexTarget key limit x := by
  induction i generalizing x limit with
  | zero =>
    cases hlink
    rw [Nat.zero_add]
  | succ i ih =>
    obtain ⟨w, hw, hnext⟩ := Chain.exists_link?_of_succ hlink
    obtain ⟨hasks, hhandler, hfunction⟩ := indexNext?_eq_some_iff.mp hnext
    rw [Nat.add_assoc, Nat.add_comm 1, ih hw, hasks.indexTarget_succ, hhandler]
    exact if_neg (Bool.eq_false_iff.mp hfunction)

/-- The search does at the limit what it does at a link below it. -/
theorem indexTarget_eq (hlink : s.indexLink? key object i = some x) {limit : Nat} (hi : i < limit) :
    ∃ rest, s.indexTarget key limit object = s.indexTarget key (rest + 1) x := by
  obtain ⟨rest, rfl⟩ := Nat.exists_eq_add_of_lt hi
  exact ⟨rest, by rw [Nat.add_assoc, indexTarget_of_link hlink]⟩

/-- The chain of a read stops at the value: at a table with the key, at a table without the key and
without a handler, at a value without the key whose handler is a function, or at another value
without a handler. -/
inductive IndexStops (s : State σ) (key x : Value) : Prop
  | entry (r : Ref) (hx : x = .table r) (hentry : s.rawGet r key ≠ .nil)
  | nothing (r : Ref) (hx : x = .table r) (hentry : s.rawGet r key = .nil)
      (hhandler : s.metamethod? x .index = none)
  | function (f : Value) (hasks : s.Asks key x) (hhandler : s.metamethod? x .index = some f)
      (hfunction : f.isFunction = true)
  | noFields (hx : ∀ r, x ≠ .table r) (hhandler : s.metamethod? x .index = none)

/-- The chain of a read does not go on where it stops. -/
theorem IndexStops.indexNext?_eq (hstops : s.IndexStops key x) : s.indexNext? key x = none := by
  cases hnext : s.indexNext? key x with
  | none => rfl
  | some y =>
    obtain ⟨hasks, hhandler, hfunction⟩ := indexNext?_eq_some_iff.mp hnext
    cases hstops with
    | entry r hx hentry => exact absurd (hasks r hx) hentry
    | nothing r _ _ hnone => cases hhandler.symm.trans hnone
    | function f _ hf htrue =>
      rw [Option.some.inj (hhandler.symm.trans hf), htrue] at hfunction
      cases hfunction
    | noFields _ hnone => cases hhandler.symm.trans hnone

/-- The chain of a read stops where it does not go on. -/
theorem indexNext?_eq_none_iff : s.indexNext? key x = none ↔ s.IndexStops key x := by
  refine ⟨fun hstop ↦ ?_, IndexStops.indexNext?_eq⟩
  by_cases hasks : s.Asks key x
  · cases hhandler : s.metamethod? x .index with
    | none =>
      cases x with
      | table r => exact .nothing r rfl (hasks r rfl) hhandler
      | _ => exact .noFields nofun hhandler
    | some f =>
      refine .function f hasks hhandler ?_
      by_contra hfunction
      rw [indexNext?_eq_some_iff.mpr ⟨hasks, hhandler, Bool.eq_false_iff.mpr hfunction⟩] at hstop
      cases hstop
  · simp only [Asks, not_forall] at hasks
    obtain ⟨r, rfl, hne⟩ := hasks
    exact .entry r rfl hne

end State

/-! ## Reading a field -/

namespace Act

variable {call : Caller σ}

/-- A read does what the search finds. -/
theorem index_apply (call : Caller σ) (object key : Value) (s : State σ) :
    index call object key s =
      match s.indexTarget key s.options.maxChain object with
      | .found value => (.ok value, s)
      | .handler f x =>
        match call f [x, key] s with
        | (.ok results, s') => (.ok results.first, s')
        | (.error e, s') => (.error e, s')
      | .notIndexable kind => (.error (.indexed kind), s)
      | .endless => (.error (.endlessChain .index), s) := by
  unfold index
  rw [bind_apply, get_apply]
  dsimp only
  cases s.indexTarget key s.options.maxChain object with
  | handler f x =>
    show (call f [x, key] >>= fun results ↦ pure results.first : Act σ Value) s = _
    rw [bind_apply]
    dsimp only
    generalize call f [x, key] s = answer
    obtain ⟨result, s'⟩ := answer
    cases result <;> rfl
  | _ => rfl

section

variable (hi : i < s.options.maxChain)

include hi

/-- At a table with the key a read gives its value. -/
theorem index_of_entry (hlink : s.indexLink? key object i = some (.table r))
    (hentry : s.rawGet r key ≠ .nil) :
    index call object key s = (.ok (s.rawGet r key), s) := by
  obtain ⟨rest, hrest⟩ := State.indexTarget_eq hlink hi
  rw [index_apply, hrest, State.indexTarget_of_entry hentry]

/-- At a function a read is a call. -/
theorem index_of_function (hlink : s.indexLink? key object i = some x) (hasks : s.Asks key x)
    (hhandler : s.metamethod? x .index = some f) (hfunction : f.isFunction = true) :
    index call object key s =
      match call f [x, key] s with
      | (.ok results, s') => (.ok results.first, s')
      | (.error e, s') => (.error e, s') := by
  obtain ⟨rest, hrest⟩ := State.indexTarget_eq hlink hi
  rw [index_apply, hrest, hasks.indexTarget_succ, hhandler]
  dsimp only
  rw [if_pos hfunction]

/-- At a table without the key and without a handler a read gives nil. -/
theorem index_of_nothing (hlink : s.indexLink? key object i = some (.table r))
    (hentry : s.rawGet r key = .nil) (hhandler : s.metamethod? (.table r) .index = none) :
    index call object key s = (.ok .nil, s) := by
  have hasks : s.Asks key (.table r) := by
    rintro _ ⟨⟩
    exact hentry
  obtain ⟨rest, hrest⟩ := State.indexTarget_eq hlink hi
  rw [index_apply, hrest, hasks.indexTarget_succ, hhandler]
  rfl

/-- At another value without a handler a read is refused. -/
theorem index_of_noFields (hlink : s.indexLink? key object i = some x) (hx : ∀ r, x ≠ .table r)
    (hhandler : s.metamethod? x .index = none) :
    index call object key s = (.error (.indexed x.kind), s) := by
  have hasks : s.Asks key x := fun r hr ↦ absurd hr (hx r)
  obtain ⟨rest, hrest⟩ := State.indexTarget_eq hlink hi
  rw [index_apply, hrest, hasks.indexTarget_succ, hhandler]
  cases x with
  | table r => exact absurd rfl (hx r)
  | _ => rfl

end

/-- A chain that goes on to the limit is given up. -/
theorem index_of_endless (hlink : s.indexLink? key object s.options.maxChain = some x) :
    index call object key s = (.error (.endlessChain .index), s) := by
  have hend : s.indexTarget key (s.options.maxChain + 0) object = .endless :=
    State.indexTarget_of_link hlink 0
  rw [index_apply, show s.indexTarget key s.options.maxChain object = .endless from hend]

/-- A read that stops at a link below the limit comes to a function, or it has an answer of its own
and leaves the state as it is. -/
theorem index_of_stops (hi : i < s.options.maxChain) (hlink : s.indexLink? key object i = some x)
    (hstops : s.IndexStops key x) :
    (∃ f, s.Asks key x ∧ s.metamethod? x .index = some f ∧ f.isFunction = true) ∨
      ∃ answer : Except Error Value, answer ≠ .error (.endlessChain .index) ∧
        ∀ call, index call object key s = (answer, s) := by
  cases hstops with
  | entry r hx hentry =>
    subst hx
    exact .inr ⟨.ok (s.rawGet r key), nofun, fun _ ↦ index_of_entry hi hlink hentry⟩
  | nothing r hx hentry hhandler =>
    subst hx
    exact .inr ⟨.ok .nil, nofun, fun _ ↦ index_of_nothing hi hlink hentry hhandler⟩
  | function f hasks hhandler hfunction => exact .inl ⟨f, hasks, hhandler, hfunction⟩
  | noFields hx hhandler =>
    exact .inr ⟨.error (.indexed x.kind), nofun, fun _ ↦ index_of_noFields hi hlink hx hhandler⟩

/-- A read stops at a link below the limit, or it is given up there. -/
theorem index_stops_or_endless (s : State σ) (object key : Value) :
    (∃ i < s.options.maxChain, ∃ x, s.indexLink? key object i = some x ∧ s.IndexStops key x) ∨
      ∀ call, index call object key s = (.error (.endlessChain .index), s) := by
  rcases Chain.exists_stop_or_link (s.indexNext? key) object s.options.maxChain with
    ⟨i, hi, x, hlink, hstop⟩ | ⟨x, hlink⟩
  · exact .inl ⟨i, hi, x, hlink, State.indexNext?_eq_none_iff.mp hstop⟩
  · exact .inr fun _ ↦ index_of_endless hlink

/-- What a read of a field comes to, by the link where its chain stops. -/
structure IndexResolves (s : State σ) (object key : Value) : Prop where
  /-- The chain stops at one link at most. -/
  once : ∀ i x j y, s.indexLink? key object i = some x → s.IndexStops key x →
    s.indexLink? key object j = some y → s.IndexStops key y → i = j
  /-- A table with the key gives its value. -/
  entry : ∀ call i r, i < s.options.maxChain → s.indexLink? key object i = some (.table r) →
    s.rawGet r key ≠ .nil → index call object key s = (.ok (s.rawGet r key), s)
  /-- A table without the key and without a handler gives nil. -/
  nothing : ∀ call i r, i < s.options.maxChain → s.indexLink? key object i = some (.table r) →
    s.rawGet r key = .nil → s.metamethod? (.table r) .index = none →
      index call object key s = (.ok .nil, s)
  /-- A function is called once, with the value that it is the handler of and the key. Its first
  result is the answer, or nil if it has none, and its error is the error. -/
  function : ∀ call i x f, i < s.options.maxChain → s.indexLink? key object i = some x →
    s.Asks key x → s.metamethod? x .index = some f → f.isFunction = true →
      index call object key s =
        match call f [x, key] s with
        | (.ok results, s') => (.ok (results.toList.headD .nil), s')
        | (.error e, s') => (.error e, s')
  /-- Another value without a handler is a type error that names its type. -/
  noFields : ∀ i x, i < s.options.maxChain → s.indexLink? key object i = some x →
    (∀ r, x ≠ .table r) → s.metamethod? x .index = none →
      ∃ e : Error, (∀ call, index call object key s = (.error e, s)) ∧ e.kind = .type ∧
        e.message = s!"attempt to index a {x.typeName} value"
  /-- A read always ends, at a link below the limit or because the chain is too long. -/
  ends : (∃ i < s.options.maxChain, ∃ x, s.indexLink? key object i = some x ∧
    s.IndexStops key x) ∨ ∀ call, index call object key s = (.error (.endlessChain .index), s)
  /-- A chain is too long exactly if it stops at none of the links below the limit. -/
  endless : (∀ call, index call object key s = (.error (.endlessChain .index), s)) ↔
    ∀ i < s.options.maxChain, ∀ x, s.indexLink? key object i = some x → ¬ s.IndexStops key x
  /-- Without a function nothing changes. -/
  unchanged : ∀ call, (∀ i < s.options.maxChain, ∀ x f, s.indexLink? key object i = some x →
    s.Asks key x → s.metamethod? x .index = some f → f.isFunction = false) →
      (index call object key s).2 = s

/-- A read of a field comes to what is at the link where the chain of handlers stops. -/
theorem index_resolves (s : State σ) (object key : Value) : IndexResolves s object key where
  once _ _ _ _ hx hstops hy hstops' :=
    Chain.stop_unique hx hstops.indexNext?_eq hy hstops'.indexNext?_eq
  entry _ _ _ hi hlink hentry := index_of_entry hi hlink hentry
  nothing _ _ _ hi hlink hentry hhandler := index_of_nothing hi hlink hentry hhandler
  function _ _ _ _ hi hlink hasks hhandler hfunction := by
    rw [index_of_function hi hlink hasks hhandler hfunction]
    simp only [Results.first_eq_headD]
  noFields _ x hi hlink hx hhandler :=
    ⟨.indexed x.kind, fun _ ↦ index_of_noFields hi hlink hx hhandler, rfl, rfl⟩
  ends := index_stops_or_endless s object key
  endless := by
    constructor
    · intro hendless i hi x hlink hstops
      rcases index_of_stops hi hlink hstops with ⟨f, hasks, hhandler, hfunction⟩ | ⟨answer, hne, h⟩
      · -- The host may have functions that return nothing.
        have hcall := hendless fun _ _ ↦ pure .empty
        rw [index_of_function hi hlink hasks hhandler hfunction] at hcall
        cases hcall
      · exact hne (Prod.mk.inj ((h fun _ _ ↦ pure .empty).symm.trans (hendless _))).1
    · intro hstops
      rcases index_stops_or_endless s object key with ⟨i, hi, x, hlink, hstop⟩ | hendless
      · exact absurd hstop (hstops i hi x hlink)
      · exact hendless
  unchanged call hfunctions := by
    rcases index_stops_or_endless s object key with ⟨i, hi, x, hlink, hstop⟩ | hendless
    · rcases index_of_stops hi hlink hstop with ⟨f, hasks, hhandler, hfunction⟩ | ⟨answer, -, h⟩
      · rw [hfunctions i hi x f hlink hasks hhandler] at hfunction
        cases hfunction
      · rw [h call]
    · rw [hendless call]

end Act

end

namespace Act

/-- An instance with the given limit. Numbers have the metatable 0, which sends their reads to the
table 1; that has the metatable 2, which sends its reads to the table 3, where the field 1 is
true. -/
def detour (limit : Nat) : State Unit :=
  let s := (rawSet (.table 0) (.str ⟨Utf8.ofString "__index", 4⟩) (.table 1) blank).2
  let s := (rawSet (.table 2) (.str ⟨Utf8.ofString "__index", 4⟩) (.table 3) s).2
  let s := (rawSet (.table 3) (.int 1) (.bool true) s).2
  let s := (setTableMetatable 1 (some 2) s).2
  { s with
    shared := s.shared.set .integer (some 0)
    options := { s.options with maxChain := limit } }

/-- The field of a number is found in the table 3 if the limit is three, and not if it is two. -/
theorem index_resolves_of_detour :
    index silent (.int 7) (.int 1) (detour 3) = (.ok (.bool true), detour 3) ∧
      index silent (.int 7) (.int 1) (detour 2) = (.error (.endlessChain .index), detour 2) := by
  constructor
  · have hvalue : (detour 3).rawGet 3 (.int 1) = .bool true := by decide +kernel
    have hlink : (detour 3).indexLink? (.int 1) (.int 7) 2 = some (.table 3) := by decide +kernel
    have hread := (index_resolves (detour 3) (.int 7) (.int 1)).entry silent 2 3 (by decide) hlink
    rw [hvalue] at hread
    exact hread nofun
  · have hgoes : ∀ i < 2, ((detour 2).indexLink? (.int 1) (.int 7) (i + 1)).isSome = true := by
      decide +kernel
    refine (index_resolves (detour 2) (.int 7) (.int 1)).endless.mpr (fun i hi x hlink hstops ↦ ?_)
      silent
    have hsome := hgoes i hi
    rw [State.indexLink?, Chain.link?_succ hlink, hstops.indexNext?_eq] at hsome
    cases hsome

end Act

end LuaData
