import LuaData.Proofs.ListOperations
import LuaData.State.Index

/-!
# Where a field is written

A write of a field goes from value to value along the `__newindex` handlers. `Link` says which value
is how far along, and `Stops` what the write comes to there: a table takes the value, a function is
called, or the value has no fields. `Act.setIndex_writesOnce` says that a write does what it finds
at the one link where the chain stops, within the limit, and changes no other table; and that it
changes none at all if it fails.
-/

namespace LuaData

section

variable [Hashing]
variable {σ : Type} {s s' : State σ} {object key value x y handler : Value} {r : Ref} {t u : Table}
  {i j : Nat} {target target' : NewIndexTarget}

/-! ## The chain of handlers -/

namespace State

/-- The value is asked for its handler: it is no table, or a table without the key. -/
def Asks (s : State σ) (key x : Value) : Prop :=
  ∀ r, x = .table r → s.rawGet r key = .nil

/-- The chain of a write: each value but the first one is the handler of the value before it. -/
inductive Link (s : State σ) (key object : Value) : Nat → Value → Prop
  | start : Link s key object 0 object
  | next {i : Nat} {x handler : Value} (hlink : Link s key object i x) (hasks : s.Asks key x)
      (hhandler : s.metamethod? x .newIndex = some handler)
      (hfunction : handler.isFunction = false) : Link s key object (i + 1) handler

/-- The chain stops at the value. -/
inductive Stops (s : State σ) (key x : Value) : NewIndexTarget → Prop
  /-- A table that has the key, or has no handler, takes the value. -/
  | store {r : Ref} (hx : x = .table r)
      (htakes : s.rawGet r key ≠ .nil ∨ s.metamethod? x .newIndex = none) : Stops s key x (.store r)
  /-- A handler that is a function is called. -/
  | handler {f : Value} (hasks : s.Asks key x) (hhandler : s.metamethod? x .newIndex = some f)
      (hfunction : f.isFunction = true) : Stops s key x (.handler f x)
  /-- Another value without a handler has no fields. -/
  | notIndexable (hx : ∀ r, x ≠ .table r) (hhandler : s.metamethod? x .newIndex = none) :
      Stops s key x (.notIndexable x.kind)

/-- The chain stops at a value or goes on from it. -/
theorem stops_or_next (s : State σ) (key x : Value) : (∃ target, s.Stops key x target) ∨
    ∃ handler, s.Asks key x ∧ s.metamethod? x .newIndex = some handler ∧
      handler.isFunction = false := by
  by_cases hasks : s.Asks key x
  · cases hhandler : s.metamethod? x .newIndex with
    | none =>
      cases x with
      | table r => exact .inl ⟨_, .store rfl (.inr hhandler)⟩
      | _ => exact .inl ⟨_, .notIndexable nofun hhandler⟩
    | some handler =>
      cases hfunction : handler.isFunction with
      | true => exact .inl ⟨_, .handler hasks hhandler hfunction⟩
      | false => exact .inr ⟨handler, hasks, rfl, hfunction⟩
  · simp only [Asks, not_forall] at hasks
    obtain ⟨r, rfl, hne⟩ := hasks
    exact .inl ⟨_, .store rfl (.inl hne)⟩

/-- The handler that the search goes on with. -/
def newIndexHandler? (s : State σ) (key : Value) : Value → Option Value
  | .table r => if (s.rawGet r key).isNil then s.metamethod? (.table r) .newIndex else none
  | x => s.metamethod? x .newIndex

/-- One step of the search. -/
theorem newIndexTarget_succ (s : State σ) (key x : Value) (limit : Nat) :
    s.newIndexTarget key (limit + 1) x =
      match s.newIndexHandler? key x with
      | some h => if h.isFunction then .handler h x else s.newIndexTarget key limit h
      | none =>
        match x with
        | .table r => .store r
        | _ => .notIndexable x.kind := by
  cases x <;> rfl

/-- A value that is asked gives its handler. -/
theorem Asks.newIndexHandler?_eq (hasks : s.Asks key x) :
    s.newIndexHandler? key x = s.metamethod? x .newIndex := by
  cases x with
  | table r => rw [newIndexHandler?, hasks r rfl, Value.isNil, if_pos rfl]
  | _ => rfl

/-- What the search finds where the chain stops. -/
theorem Stops.newIndexTarget_eq (hstops : s.Stops key x target) (limit : Nat) :
    s.newIndexTarget key (limit + 1) x = target := by
  rw [newIndexTarget_succ]
  cases hstops with
  | @store r hx htakes =>
    subst hx
    have hnone : s.newIndexHandler? key (.table r) = none := by
      rw [newIndexHandler?]
      rcases htakes with hne | hnone
      · rw [Value.isNil_eq_false hne, if_neg Bool.false_ne_true]
      · rw [hnone, ite_self]
    rw [hnone]
  | handler hasks hhandler hfunction =>
    rw [hasks.newIndexHandler?_eq, hhandler]
    exact if_pos hfunction
  | notIndexable hx hhandler =>
    have hasks : s.Asks key x := fun r hr ↦ absurd hr (hx r)
    rw [hasks.newIndexHandler?_eq, hhandler]
    cases x with
    | table r => exact absurd rfl (hx r)
    | _ => rfl

/-- The search goes on where the chain does. -/
theorem newIndexTarget_next (hasks : s.Asks key x)
    (hhandler : s.metamethod? x .newIndex = some handler) (hfunction : handler.isFunction = false)
    (limit : Nat) : s.newIndexTarget key (limit + 1) x = s.newIndexTarget key limit handler := by
  rw [newIndexTarget_succ, hasks.newIndexHandler?_eq, hhandler]
  exact if_neg (Bool.eq_false_iff.mp hfunction)

namespace Link

/-- The search from a link is what is left of the search from the start. -/
theorem newIndexTarget_eq (hlink : s.Link key object i x) (limit : Nat) :
    s.newIndexTarget key (i + limit) object = s.newIndexTarget key limit x := by
  induction hlink generalizing limit with
  | start => rw [Nat.zero_add]
  | next _ hasks hhandler hfunction ih =>
    rw [Nat.add_assoc, Nat.add_comm 1, ih, newIndexTarget_next hasks hhandler hfunction]

/-- The search finds the stop of the chain, if the limit lets it get there. -/
theorem newIndexTarget_of_stops (hlink : s.Link key object i x) (hstops : s.Stops key x target)
    {limit : Nat} (hlt : i < limit) : s.newIndexTarget key limit object = target := by
  obtain ⟨rest, rfl⟩ := Nat.exists_eq_add_of_lt hlt
  rw [Nat.add_assoc, hlink.newIndexTarget_eq]
  exact hstops.newIndexTarget_eq rest

end Link

/-- A chain that stops nowhere goes on and on. -/
theorem exists_link (hstops : ∀ j < i, ∀ x target, s.Link key object j x → ¬ s.Stops key x target) :
    ∃ x, s.Link key object i x := by
  induction i with
  | zero => exact ⟨object, .start⟩
  | succ i ih =>
    obtain ⟨x, hlink⟩ := ih fun j hj ↦ hstops j (hj.trans (Nat.lt_succ_self i))
    rcases s.stops_or_next key x with ⟨target, hstop⟩ | ⟨handler, hasks, hhandler, hfunction⟩
    · exact absurd hstop (hstops i (Nat.lt_succ_self i) x target hlink)
    · exact ⟨handler, .next hlink hasks hhandler hfunction⟩

/-- The search for the stop of a chain that goes on beyond the limit. -/
theorem newIndexTarget_of_endless {limit : Nat}
    (hstops : ∀ j < limit, ∀ x target, s.Link key object j x → ¬ s.Stops key x target) :
    s.newIndexTarget key limit object = .endless := by
  obtain ⟨x, hlink⟩ := exists_link hstops
  exact hlink.newIndexTarget_eq 0

/-- A link is one value. -/
theorem Link.unique (hlink : s.Link key object i x) (hlink' : s.Link key object i y) : x = y := by
  induction hlink generalizing y with
  | start =>
    cases hlink'
    rfl
  | next _ _ hhandler _ ih =>
    cases hlink' with
    | next hlink' _ hhandler' _ =>
      rw [ih hlink', hhandler'] at hhandler
      exact (Option.some.inj hhandler).symm

/-- The chain does not go on where it stops. -/
theorem Stops.not_next (hstops : s.Stops key x target) (hasks : s.Asks key x)
    (hhandler : s.metamethod? x .newIndex = some handler) : handler.isFunction = true := by
  cases hstops with
  | store hx htakes =>
    rcases htakes with hne | hnone
    · exact absurd (hasks _ hx) hne
    · cases hhandler.symm.trans hnone
  | handler _ hhandler' hfunction =>
    rwa [Option.some.inj (hhandler.symm.trans hhandler')]
  | notIndexable _ hnone => cases hhandler.symm.trans hnone

/-- No link is beyond one where the chain stops. -/
theorem Stops.le_of_link (hstops : s.Stops key x target) (hlink : s.Link key object i x)
    (hlink' : s.Link key object j y) : j ≤ i := by
  induction hlink' with
  | start => exact Nat.zero_le i
  | @next j z _ hlink' hasks hhandler hfunction ih =>
    refine Nat.lt_of_le_of_ne ih fun heq ↦ ?_
    obtain rfl : z = x := hlink'.unique (heq ▸ hlink)
    rw [hstops.not_next hasks hhandler] at hfunction
    cases hfunction

/-- The chain stops at one link at most, and in one way. -/
theorem Stops.unique (hstops : s.Stops key x target) (hlink : s.Link key object i x)
    (hstops' : s.Stops key y target') (hlink' : s.Link key object j y) :
    i = j ∧ x = y ∧ target = target' := by
  obtain rfl : i = j :=
    Nat.le_antisymm (hstops'.le_of_link hlink' hlink) (hstops.le_of_link hlink hlink')
  obtain rfl := hlink.unique hlink'
  exact ⟨rfl, rfl, (hstops.newIndexTarget_eq 0).symm.trans (hstops'.newIndexTarget_eq 0)⟩

end State

/-! ## Tables that are not written -/

/-- The table `u` shows later what `t` showed before, apart from the entries of a table with weak
handles that are lost with their objects. -/
structure Table.Outlasts (before after : Context) (t u : Table) : Prop where
  values : ∀ key k, key.key? = some k → u.get after key = t.survivors before after k
  strong : t.mode = .strong → ∀ key, u.get after key = t.get before key

/-- A table that has the values of an old one at a later moment. -/
theorem Table.Sound.outlasts {m n : Moment} (hs : t.Sound Value.hash m) (hle : m ≤ n)
    (hsame : Table.SameValues Value.hash n t u) :
    t.Outlasts (m.context Value.hash) (n.context Value.hash) u := by
  have hvalues : ∀ key k, key.key? = some k → u.get (n.context Value.hash) key =
      t.survivors (m.context Value.hash) (n.context Value.hash) k := by
    intro key k hkey
    have hk := Value.stored_of_key? hkey
    rw [Table.get_of_key? _ _ hkey, hsame k hk]
    exact hs.get_later hle Value.rawEq_hash hk
  refine ⟨hvalues, fun hmode key ↦ ?_⟩
  cases hkey : key.key? with
  | none => rw [Table.get_of_key?_none _ _ hkey, Table.get_of_key?_none _ _ hkey]
  | some k =>
    rw [hvalues key k hkey, Table.survivors_eq_get (.inl hmode), Table.get_of_key? _ _ hkey]

/-- No table has been written between the two states: what is held is still there, and the tables
that are left show what they showed. -/
structure State.Unwritten (s s' : State σ) : Prop where
  held : ∀ v ∈ s.held, v.present s.heap.alive = true → v.present s'.heap.alive = true
  tables : ∀ q u, s'.heap.table? q = some u →
    ∃ t, s.heap.table? q = some t ∧ t.Outlasts s.context s'.context u

/-- Nothing is written if nothing happens. -/
theorem State.Reached.unwritten_refl (hs : s.Reached) : s.Unwritten s :=
  ⟨fun _ _ hv ↦ hv, fun _ u hu ↦
    ⟨u, hu, (hs.sound hu).outlasts (le_refl s.moment) fun _ _ ↦ rfl⟩⟩

namespace Act

variable {call : Caller σ} {e : Error}

/-- A write that fails writes no table. -/
theorem unwritten_rawSet (hs : s.Reached) (h : s.heap.table? r = some t)
    (hsize : t.array.size ≤ 2 ^ 31) (hvalue : value.present s.heap.alive = true)
    (hset : rawSet (.table r) key value s = (.error e, s')) : s.Unwritten s' := by
  obtain ⟨hfollows, -, c, u, hclear, hlast, hu, hstore⟩ := rawSet_eq_store h hset
  refine ⟨hfollows.present, fun q w hw ↦ ?_⟩
  by_cases hq : q = r
  · subst hq
    obtain rfl := Option.some.inj (hu.symm.trans hw)
    have hsame := (hs.sound h).same_of_store_error (hclear ▸ le_refl s.moment) Value.rawEq_hash
      (Value.named_of_present (m := s.moment) hvalue) hsize hstore
    rw [hlast] at hsame
    exact ⟨t, h, (hs.sound h).outlasts hfollows.le hsame⟩
  · have hw' := State.table?_of_cell? (hfollows.others q _ hq (Heap.cell?_of_table? hw))
    exact ⟨w, hw', (hs.sound hw').outlasts hfollows.le fun _ _ ↦ rfl⟩

/-! ## The write of a field -/

/-- A write does what the search finds. -/
theorem setIndex_apply (call : Caller σ) (object key value : Value) (s : State σ) :
    setIndex call object key value s =
      match s.newIndexTarget key s.options.maxChain object with
      | .store r => rawSet (.table r) key value s
      | .handler f x =>
        match call f [x, key, value] s with
        | (.ok _, s') => (.ok (), s')
        | (.error e, s') => (.error e, s')
      | .notIndexable kind => (.error (.indexed kind), s)
      | .endless => (.error (.endlessChain .newIndex), s) := by
  unfold setIndex
  rw [bind_apply, get_apply]
  dsimp only
  cases s.newIndexTarget key s.options.maxChain object with
  | handler f x =>
    show (call f [x, key, value] >>= fun _ ↦ pure () : Act σ Unit) s = _
    rw [bind_apply]
    dsimp only
    generalize call f [x, key, value] s = answer
    obtain ⟨result, s'⟩ := answer
    cases result <;> rfl
  | _ => rfl

section

variable (hi : i < s.options.maxChain) (hlink : s.Link key object i x)

include hi hlink

/-- At a table the write is a raw write. -/
theorem setIndex_of_store (hstops : s.Stops key x (.store r)) :
    setIndex call object key value s = rawSet (.table r) key value s := by
  rw [setIndex_apply, hlink.newIndexTarget_of_stops hstops hi]

/-- At a function the write is a call. -/
theorem setIndex_of_handler {f : Value} (hstops : s.Stops key x (.handler f x)) :
    setIndex call object key value s =
      match call f [x, key, value] s with
      | (.ok _, s') => (.ok (), s')
      | (.error e, s') => (.error e, s') := by
  rw [setIndex_apply, hlink.newIndexTarget_of_stops hstops hi]

/-- At a value without fields the write is refused. -/
theorem setIndex_of_notIndexable {kind : Kind} (hstops : s.Stops key x (.notIndexable kind)) :
    setIndex call object key value s = (.error (.indexed kind), s) := by
  rw [setIndex_apply, hlink.newIndexTarget_of_stops hstops hi]

end

/-- A chain that does not stop within the limit is given up. -/
theorem setIndex_of_endless (hstops : ∀ i < s.options.maxChain, ∀ x target,
    s.Link key object i x → ¬ s.Stops key x target) :
    setIndex call object key value s = (.error (.endlessChain .newIndex), s) := by
  rw [setIndex_apply, State.newIndexTarget_of_endless hstops]

/-- A raw write under nil or NaN is refused. -/
theorem rawSet_of_noKey (hkey : key.NoKey) (r : Ref) (value : Value) (s : State σ) :
    ∃ e, rawSet (.table r) key value s = (.error e, s) := by
  rw [rawSet_apply, Table.storedKey, (Value.key?_eq_none_iff key).mpr hkey]
  exact ⟨_, rfl⟩

/-- What a write of a field does. -/
structure WritesOnce (call : Caller σ) (s : State σ) (object key value : Value) : Prop where
  /-- The chain stops at one link at most, and in one way. -/
  once : ∀ i x target j y target', s.Link key object i x → s.Stops key x target →
    s.Link key object j y → s.Stops key y target' → i = j ∧ x = y ∧ target = target'
  /-- At a table the write is a raw write to it, which changes no other cell. -/
  stored : ∀ i x r, i < s.options.maxChain → s.Link key object i x → s.Stops key x (.store r) →
    setIndex call object key value s = rawSet (.table r) key value s ∧
      s.Follows r (rawSet (.table r) key value s).2
  /-- At a function the write is one call of it, and nothing else. -/
  called : ∀ i x f, i < s.options.maxChain → s.Link key object i x →
    s.Stops key x (.handler f x) → setIndex call object key value s =
      match call f [x, key, value] s with
      | (.ok _, s') => (.ok (), s')
      | (.error e, s') => (.error e, s')
  /-- At another value without a handler the write is a type error. -/
  refused : ∀ i x kind, i < s.options.maxChain → s.Link key object i x →
    s.Stops key x (.notIndexable kind) →
      ∃ e, setIndex call object key value s = (.error e, s) ∧ e.kind = .type
  /-- A chain that does not stop within the limit is too long. -/
  endless : (∀ i < s.options.maxChain, ∀ x target, s.Link key object i x →
    ¬ s.Stops key x target) → setIndex call object key value s =
      (.error (.endlessChain .newIndex), s)
  /-- A table refuses nil and NaN at once. -/
  keyless : key.NoKey → ∀ i x r, i < s.options.maxChain → s.Link key object i x →
    s.Stops key x (.store r) → ∃ e, setIndex call object key value s = (.error e, s)
  /-- A write that fails without calling a function writes no table. -/
  failed : ∀ e s', setIndex call object key value s = (.error e, s') →
    (∀ i < s.options.maxChain, ∀ x f, s.Link key object i x → ¬ s.Stops key x (.handler f x)) →
      s.Unwritten s'

/-- A write of a field happens at the link where the chain of handlers stops, or nowhere. -/
theorem setIndex_writesOnce (call : Caller σ) (hs : s.Reached)
    (hvalue : value.present s.heap.alive = true)
    (htable : ∀ i x r, i < s.options.maxChain → s.Link key object i x →
      s.Stops key x (.store r) → ∃ t, s.heap.table? r = some t ∧ t.array.size ≤ 2 ^ 31) :
    WritesOnce call s object key value where
  once _ _ _ _ _ _ hlink hstops hlink' hstops' := hstops.unique hlink hstops' hlink'
  stored i x r hi hlink hstops := by
    obtain ⟨t, ht, -⟩ := htable i x r hi hlink hstops
    exact ⟨setIndex_of_store hi hlink hstops, (rawSet_eq_store ht rfl).1⟩
  called _ _ _ hi hlink hstops := setIndex_of_handler hi hlink hstops
  refused _ _ _ hi hlink hstops := ⟨_, setIndex_of_notIndexable hi hlink hstops, rfl⟩
  endless hstops := setIndex_of_endless hstops
  keyless hkey _ _ r hi hlink hstops := by
    rw [setIndex_of_store hi hlink hstops]
    exact rawSet_of_noKey hkey r value s
  failed e s' hset hcalls := by
    by_cases hstop : ∃ i < s.options.maxChain, ∃ x target, s.Link key object i x ∧
        s.Stops key x target
    · obtain ⟨i, hi, x, target, hlink, hstops⟩ := hstop
      cases hstops with
      | @store r hx htakes =>
        obtain ⟨t, ht, hsize⟩ := htable i x r hi hlink (.store hx htakes)
        rw [setIndex_of_store hi hlink (.store hx htakes)] at hset
        exact unwritten_rawSet hs ht hsize hvalue hset
      | handler hasks hhandler hfunction =>
        exact absurd (.handler hasks hhandler hfunction) (hcalls i hi x _ hlink)
      | notIndexable hx hhandler =>
        rw [setIndex_of_notIndexable hi hlink (.notIndexable hx hhandler)] at hset
        cases hset
        exact hs.unwritten_refl
    · have hendless : ∀ i < s.options.maxChain, ∀ x target, s.Link key object i x →
          ¬ s.Stops key x target :=
        fun i hi x target hlink hstops ↦ hstop ⟨i, hi, x, target, hlink, hstops⟩
      rw [setIndex_of_endless hendless] at hset
      cases hset
      exact hs.unwritten_refl

end Act

end

namespace Act

/-- An instance with four tables, all of which are held, and a string. -/
def blank : State Unit :=
  { State.initial Options.default () with
    heap := [.table (.withHashSize 0), .table (.withHashSize 0), .table (.withHashSize 0),
      .table (.withHashSize 0), .text].foldl Heap.allocate .empty
    held := [.table 0, .table 1, .table 2, .table 3] }

/-- Numbers have the metatable 0, which sends their writes to the table 1; that has the metatable 2,
which sends its writes to the table 3. -/
def forwarding : State Unit :=
  let s := (rawSet (.table 0) (.str ⟨Utf8.ofString "__newindex", 4⟩) (.table 1) blank).2
  let s := (rawSet (.table 2) (.str ⟨Utf8.ofString "__newindex", 4⟩) (.table 3) s).2
  let s := (setTableMetatable 1 (some 2) s).2
  { s with shared := s.shared.set .integer (some 0) }

/-- All its tables are reached. -/
theorem reached_forwarding : forwarding.Reached := by
  have hblank : blank.Reached :=
    (((((State.reached_initial Options.default ()).allocateTable 0).allocateTable 0).allocateTable
      0).allocateTable 0).allocateText
  have hnumber := reached_after_rawSet hblank 0 (.str ⟨Utf8.ofString "__newindex", 4⟩) (.table 1)
    (by decide +kernel)
  have hproxy := reached_after_rawSet hnumber 2 (.str ⟨Utf8.ofString "__newindex", 4⟩) (.table 3)
    (by decide +kernel)
  have hmounted := reached_after_setTableMetatable hproxy 1 (some 2) (by decide +kernel)
  exact hmounted.withShared _

/-- The chain of a write to a number ends at the table 3. -/
theorem stops_forwarding : forwarding.Link (.int 1) (.int 7) 2 (.table 3) ∧
    forwarding.Stops (.int 1) (.table 3) (.store 3) := by
  have hfirst : forwarding.Link (.int 1) (.int 7) 1 (.table 1) :=
    .next .start nofun (by decide +kernel) rfl
  have hasks : forwarding.Asks (.int 1) (.table 1) := by
    intro r hr
    cases hr
    decide +kernel
  exact ⟨.next hfirst hasks (by decide +kernel) rfl, .store rfl (.inr (by decide +kernel))⟩

/-- The host's functions return nothing. -/
def silent : Caller Unit :=
  Act.call fun _ _ ↦ return .empty

/-- A field of a number is written to the table 3. -/
theorem setIndex_writesOnce_of_forwarding :
    WritesOnce silent forwarding (.int 7) (.int 1) (.bool true) ∧
      setIndex silent (.int 7) (.int 1) (.bool true) forwarding =
        rawSet (.table 3) (.int 1) (.bool true) forwarding := by
  obtain ⟨hlink, hstop⟩ := stops_forwarding
  have hfound : ∃ t, forwarding.heap.table? 3 = some t ∧ t.array.size ≤ 2 ^ 31 := by
    obtain ⟨t, ht⟩ := Option.isSome_iff_exists.mp
      (show (forwarding.heap.table? 3).isSome = true by decide +kernel)
    have hsize : (forwarding.table 3).array.size ≤ 2 ^ 31 := by decide +kernel
    exact ⟨t, ht, State.table_eq ht ▸ hsize⟩
  have hwrites : WritesOnce silent forwarding (.int 7) (.int 1) (.bool true) := by
    refine setIndex_writesOnce silent reached_forwarding rfl fun i x r _ hlink' hstops ↦ ?_
    obtain ⟨-, -, ⟨⟩⟩ := hstop.unique hlink hstops hlink'
    exact hfound
  have hlimit : 2 < forwarding.options.maxChain := by decide +kernel
  exact ⟨hwrites, (hwrites.stored 2 (.table 3) 3 hlimit hlink hstop).1⟩

end Act

end LuaData
