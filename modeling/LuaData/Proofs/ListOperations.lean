import LuaData.Proofs.Instance
import LuaData.Proofs.Shifting
import LuaData.State.Sequence

/-!
# Insertions and removals in an instance

`Act.insert` and `Act.remove` shift the values of a list, on whichever of the three ways the table
allows. Each write of theirs sees what the writes before it have left alive, so they are the runs
`Table.Inserting` and `Table.Removing` along the moments of the heap. Read
`Act.insert_and_remove_shift` first.
-/

namespace LuaData

/-- Replacing a table by itself changes nothing. -/
theorem State.setTable_self {σ : Type} {s : State σ} {r : Ref} {t : Table}
    (h : s.heap.table? r = some t) : s.setTable r t = s := by
  have hcell : s.heap.cells[r]? = some (some (.table t)) :=
    Option.join_eq_some_iff.mp (Heap.cell?_of_table? h)
  have hcells : s.heap.cells.setIfInBounds r (some (.table t)) = s.heap.cells := by
    obtain ⟨hlt, hget⟩ := Array.getElem?_eq_some_iff.mp hcell
    rw [Array.setIfInBounds_def, dif_pos hlt, ← hget, Array.set_getElem_self]
  unfold State.setTable Heap.update
  rw [hcells]

/-- What is held for an operation is let go of at its end. -/
theorem State.Follows.inScope {σ : Type} {s s' : State σ} {r : Ref} {held : List Value}
    (h : Follows r { s with held } s') (hsub : ∀ v ∈ s.held, v ∈ held) :
    Follows r s { s' with held := s.held } :=
  ⟨rfl, h.le, fun v hv ↦ h.present v (hsub v hv), h.others⟩

namespace Act

section

variable [Hashing]
variable {σ : Type} {s s' : State σ} {r : Ref} {t : Table} {value : Value} {position : Int64}

/-- A write of a list is that of the table. -/
theorem listSet_eq_storeKey (h : s.heap.table? r = some t) (hheld : .table r ∈ s.held) {k : Nat}
    {result : Except Error Unit} (hset : listSet r k value s = (result, s')) :
    s.Follows r s' ∧ ∃ (c : Course) (u : Table), c.clear = s.moment ∧ c.last ≤ s'.moment ∧
      s'.heap.table? r = some u ∧
      t.storeKey Value.hash c (.int (Int64.ofNat k)) value = (result, u) := by
  unfold listSet at hset
  rw [bind_apply] at hset
  cases hraw : rawSet (.table r) (.int (Int64.ofNat k)) value s with
  | mk result' s₁ =>
    rw [hraw] at hset
    obtain ⟨hfollows, -, c, u, hclear, hlast, hu, hstore⟩ := rawSet_eq_store h hraw
    cases result' with
    | error e =>
      cases hset
      exact ⟨hfollows, c, u, hclear, hlast.le, hu, hstore⟩
    | ok _ =>
      dsimp only at hset
      rw [settleFor_apply] at hset
      cases hset
      obtain ⟨hu', hsettled⟩ := follows_settledFor hu (hfollows.held ▸ hheld)
      exact ⟨hfollows.trans hsettled, c, u, hclear, hlast.le.trans hsettled.le, hu', hstore⟩

/-- The value of a list is read at the moment of the state. -/
theorem listGet_apply (h : s.heap.table? r = some t) (k : Nat) :
    listGet r k s = (.ok (t.getInt (s.moment.context Value.hash) (Int64.ofNat k)), s) := by
  have hread : s.rawGet r (.int (Int64.ofNat k)) =
      t.get (s.moment.context Value.hash) (.int (Int64.ofNat k)) := by
    rw [State.rawGet, State.table_eq h]
    rfl
  rw [listGet, bind_apply, get_apply]
  dsimp only
  rw [hread]
  rfl

/-- Copy values one after the other. -/
def copyAll (r : Ref) : List (Nat × Nat) → Act σ Unit
  | [] => return ()
  | job :: jobs => do
    listSet r job.2 (← listGet r job.1)
    copyAll r jobs

/-- Shifting values up is copying them. -/
theorem shiftUp_eq (r : Ref) (first count : Nat) :
    (shiftUp r first count : Act σ Unit) = copyAll r (Table.copiesUp first count) := by
  induction count with
  | zero => rfl
  | succ count ih =>
    unfold shiftUp Table.copiesUp copyAll
    rw [ih]

/-- Shifting values down is copying them. -/
theorem shiftDown_eq (r : Ref) (first count : Nat) :
    (shiftDown r first count : Act σ Unit) = copyAll r (Table.copiesDown first count) := by
  induction count generalizing first with
  | zero => rfl
  | succ count ih =>
    unfold shiftDown Table.copiesDown copyAll
    rw [ih]

/-- The copies of an instance are those of the table, along the moments of the heap. -/
theorem copyAll_copying (h : s.heap.table? r = some t) (hheld : .table r ∈ s.held)
    {jobs : List (Nat × Nat)} {result : Except Error Unit}
    (hcopy : copyAll r jobs s = (result, s')) :
    s.Follows r s' ∧ ∃ u, s'.heap.table? r = some u ∧
      Table.Copying Value.hash jobs s.moment t result s'.moment u := by
  induction jobs generalizing s t with
  | nil =>
    cases hcopy
    exact ⟨.refl r s', t, h, .done (le_refl _)⟩
  | cons job jobs ih =>
    rw [copyAll, bind_apply, listGet_apply h] at hcopy
    dsimp only at hcopy
    rw [bind_apply] at hcopy
    cases hset : listSet r job.2 (t.getInt (s.moment.context Value.hash) (Int64.ofNat job.1)) s with
    | mk result' s₁ =>
      rw [hset] at hcopy
      obtain ⟨hfollows, c, u, hclear, hlast, hu, hstore⟩ := listSet_eq_storeKey h hheld hset
      cases result' with
      | error e =>
        cases hcopy
        exact ⟨hfollows, u, hu, .failed (le_refl _) hclear.ge hstore hlast⟩
      | ok _ =>
        obtain ⟨hfollows', w, hw, hcopying⟩ := ih hu (hfollows.held ▸ hheld) hcopy
        exact ⟨hfollows.trans hfollows', w, hw,
          .step (le_refl _) hclear.ge hstore (hcopying.of_le hlast)⟩

/-- An insertion whose table and value are held. -/
def insertHeld (r : Ref) (position : Int64) (value : Value) : Act σ Unit := do
  if ((← get).table r).mayExpire then
    match ← modifyTable r fun ctx t ↦ return (← t.insertion ctx position value, t) with
    | .inArray _ t => modify fun s ↦ s.setTable r t
    | .byKey first count =>
      shiftUp r first count
      listSet r first value
  else
    modifyTable r fun ctx t ↦ return ((), ← t.insert ctx position value)

/-- An insertion holds its table and its value until it ends. -/
theorem insert_apply (s : State σ) (r : Ref) (position : Int64) (value : Value) :
    insert r position value s =
      match insertHeld r position value { s with held := value :: .table r :: s.held } with
      | (result, s') => (result, { s' with held := s.held }) := rfl

/-- A removal whose table is held. -/
def removeHeld (r : Ref) (position : Int64) : Act σ Value := do
  if ((← get).table r).mayExpire then
    match ← modifyTable r fun ctx t ↦ return (← t.removal ctx position, t) with
    | .inArray removed t =>
      modify fun s ↦ s.setTable r t
      return removed
    | .byKey first count =>
      let removed ← listGet r first
      hold removed
      shiftDown r first count
      listSet r (first + count) .nil
      return removed
  else
    modifyTable r fun ctx t ↦ t.remove ctx position

/-- A removal holds its table until it ends. -/
theorem remove_apply (s : State σ) (r : Ref) (position : Int64) :
    remove r position s =
      match removeHeld r position { s with held := .table r :: s.held } with
      | (result, s') => (result, { s' with held := s.held }) := rfl

/-- A shift is looked for in the table. -/
theorem lookFor_apply (h : s.heap.table? r = some t)
    (f : Context → Table → Except Error Table.Shift) :
    modifyTable r (fun ctx t ↦ return (← f ctx t, t)) s = (f s.context t, s) := by
  rw [modifyTable_apply, State.table_eq h]
  cases f s.context t with
  | error e => rfl
  | ok shift =>
    show (Except.ok shift, s.setTable r t) = _
    rw [State.setTable_self h]

/-- The writes of an insertion that goes key by key. -/
def insertByKey (r : Ref) (first count : Nat) (value : Value) : Act σ Unit := do
  shiftUp r first count
  listSet r first value

/-- An insertion that goes key by key is that of the table, along the moments of the heap. -/
theorem insertByKey_inserting (h : s.heap.table? r = some t) (hheld : .table r ∈ s.held)
    {first count : Nat}
    (hinsertion : t.insertion s.context position value = .ok (.byKey first count))
    {result : Except Error Unit} (hinsert : insertByKey r first count value s = (result, s')) :
    s.Follows r s' ∧ ∃ u, (result = .ok () → s'.heap.table? r = some u) ∧
      Table.Inserting Value.hash s.moment t position value result s'.moment u := by
  rw [insertByKey, shiftUp_eq, bind_apply] at hinsert
  cases hcopy : copyAll r (Table.copiesUp first count) s with
  | mk result' s₁ =>
    rw [hcopy] at hinsert
    obtain ⟨hfollows, u, hu, hcopying⟩ := copyAll_copying h hheld hcopy
    cases result' with
    | error e =>
      cases hinsert
      exact ⟨hfollows, u, fun h ↦ (by cases h), .stopped hinsertion hcopying⟩
    | ok _ =>
      obtain ⟨hwrite, c, w, hclear, hlast, hw, hstore⟩ :=
        listSet_eq_storeKey hu (hfollows.held ▸ hheld) hinsert
      exact ⟨hfollows.trans hwrite, w, fun _ ↦ hw,
        .byKey hinsertion hcopying hclear.ge hstore hlast⟩

/-- An insertion of an instance is that of the table, along the moments of the heap. -/
theorem insertHeld_inserting (h : s.heap.table? r = some t) (hheld : .table r ∈ s.held)
    {result : Except Error Unit} (hinsert : insertHeld r position value s = (result, s')) :
    s.Follows r s' ∧ ∃ u, (result = .ok () → s'.heap.table? r = some u) ∧
      Table.Inserting Value.hash s.moment t position value result s'.moment u := by
  unfold insertHeld at hinsert
  rw [bind_apply, get_apply] at hinsert
  dsimp only at hinsert
  split at hinsert
  · rw [bind_apply, lookFor_apply h fun ctx t ↦ t.insertion ctx position value] at hinsert
    cases hinsertion : t.insertion s.context position value with
    | error e =>
      rw [hinsertion] at hinsert
      cases hinsert
      exact ⟨.refl r s, t, nofun, .refused hinsertion⟩
    | ok shift =>
      rw [hinsertion] at hinsert
      cases shift with
      | inArray removed u =>
        cases hinsert
        refine ⟨State.follows_setTable h u, u, fun _ ↦ State.table?_setTable h u, ?_⟩
        rw [State.moment_setTable h u]
        exact .inArray hinsertion
      | byKey first count => exact insertByKey_inserting h hheld hinsertion hinsert
  · obtain ⟨outcome, u, hinserting, hall⟩ :=
      Table.inserting_insert Value.hash s.moment t position value
    have hall' : t.insert s.context position value = outcome.map fun _ ↦ u := hall
    rw [modifyTable_apply, State.table_eq h, hall'] at hinsert
    cases outcome with
    | error e =>
      cases hinsert
      exact ⟨.refl r s, u, nofun, hinserting⟩
    | ok _ =>
      cases hinsert
      refine ⟨State.follows_setTable h u, u, fun _ ↦ State.table?_setTable h u, ?_⟩
      rw [State.moment_setTable h u]
      exact hinserting

/-- The writes of a removal that goes key by key. The removed value is held until they are done. -/
def removeByKey (r : Ref) (first count : Nat) : Act σ Value := do
  let removed ← listGet r first
  hold removed
  shiftDown r first count
  listSet r (first + count) .nil
  return removed

/-- A removal that goes key by key is that of the table, along the moments of the heap. -/
theorem removeByKey_removing (h : s.heap.table? r = some t) (hheld : .table r ∈ s.held)
    {first count : Nat} (hremoval : t.removal s.context position = .ok (.byKey first count))
    {result : Except Error Value} (hremove : removeByKey r first count s = (result, s')) :
    s.Follows r { s' with held := s.held } ∧
      ∃ u, (∀ v, result = .ok v → s'.heap.table? r = some u) ∧
        Table.Removing Value.hash s.moment t position result s'.moment u := by
  rw [removeByKey, bind_apply, listGet_apply h] at hremove
  dsimp only at hremove
  rw [bind_apply, hold, modify_apply, shiftDown_eq] at hremove
  dsimp only at hremove
  generalize hremoved : t.getInt (s.moment.context Value.hash) (Int64.ofNat first) = removed
    at hremove
  rw [bind_apply] at hremove
  let s₁ : State σ := { s with held := removed :: s.held }
  have h₁ : s₁.heap.table? r = some t := h
  have hheld' : .table r ∈ s₁.held := List.mem_cons_of_mem _ hheld
  -- What follows while the removed value is held follows the beginning.
  have hscope : ∀ {s₂}, s₁.Follows r s₂ → s.Follows r { s₂ with held := s.held } :=
    fun h₂ ↦ h₂.inScope fun _ hv ↦ List.mem_cons_of_mem _ hv
  cases hcopy : copyAll r (Table.copiesDown first count) s₁ with
  | mk result' s₂ =>
    rw [hcopy] at hremove
    obtain ⟨hfollows, u, hu, hcopying⟩ := copyAll_copying h₁ hheld' hcopy
    cases result' with
    | error e =>
      cases hremove
      exact ⟨hscope hfollows, u, fun _ h ↦ (by cases h), .stopped hremoval hcopying⟩
    | ok _ =>
      dsimp only at hremove
      rw [bind_apply] at hremove
      cases hlist : listSet r (first + count) .nil s₂ with
      | mk result' s₃ =>
        rw [hlist] at hremove
        obtain ⟨hwrite, c, w, hclear, hlast, hw, hstore⟩ :=
          listSet_eq_storeKey hu (hfollows.held ▸ hheld') hlist
        have hremoving : Table.Removing Value.hash s.moment t position _ s₃.moment w :=
          .byKey hremoval hcopying hclear.ge hstore hlast
        rw [hremoved] at hremoving
        have hall := hscope (hfollows.trans hwrite)
        cases result' with
        | error e =>
          cases hremove
          exact ⟨hall, w, fun _ h ↦ (by cases h), hremoving⟩
        | ok _ =>
          cases hremove
          exact ⟨hall, w, fun _ _ ↦ hw, hremoving⟩

/-- A removal of an instance is that of the table, along the moments of the heap. -/
theorem removeHeld_removing (h : s.heap.table? r = some t) (hheld : .table r ∈ s.held)
    {result : Except Error Value} (hremove : removeHeld r position s = (result, s')) :
    s.Follows r { s' with held := s.held } ∧
      ∃ u, (∀ v, result = .ok v → s'.heap.table? r = some u) ∧
        Table.Removing Value.hash s.moment t position result s'.moment u := by
  unfold removeHeld at hremove
  rw [bind_apply, get_apply] at hremove
  dsimp only at hremove
  split at hremove
  · rw [bind_apply, lookFor_apply h fun ctx t ↦ t.removal ctx position] at hremove
    cases hremoval : t.removal s.context position with
    | error e =>
      rw [hremoval] at hremove
      cases hremove
      exact ⟨.refl r s, t, nofun, .refused hremoval⟩
    | ok shift =>
      rw [hremoval] at hremove
      cases shift with
      | inArray removed u =>
        cases hremove
        refine ⟨State.follows_setTable h u, u, fun _ _ ↦ State.table?_setTable h u, ?_⟩
        rw [State.moment_setTable h u]
        exact .inArray hremoval
      | byKey first count => exact removeByKey_removing h hheld hremoval hremove
  · obtain ⟨outcome, u, hremoving, hall⟩ :=
      Table.removing_remove Value.hash s.moment t position
    have hall' : t.remove s.context position = outcome.map fun removed ↦ (removed, u) := hall
    rw [modifyTable_apply, State.table_eq h, hall'] at hremove
    cases outcome with
    | error e =>
      cases hremove
      exact ⟨.refl r s, u, nofun, hremoving⟩
    | ok _ =>
      cases hremove
      refine ⟨State.follows_setTable h u, u, fun _ _ ↦ State.table?_setTable h u, ?_⟩
      rw [State.moment_setTable h u]
      exact hremoving

/-- An insertion that is refused leaves the state. -/
theorem insert_refused (h : s.heap.table? r = some t) {e : Error}
    (hrefused : t.insertion s.context position value = .error e) :
    insert r position value s = (.error e, s) := by
  let s₀ : State σ := { s with held := value :: .table r :: s.held }
  have h₀ : s₀.heap.table? r = some t := h
  have hrefused₀ : t.insertion s₀.context position value = .error e := hrefused
  have hheld : insertHeld r position value s₀ = (.error e, s₀) := by
    unfold insertHeld
    rw [bind_apply, get_apply]
    dsimp only
    split
    · rw [bind_apply, lookFor_apply h₀ fun ctx t ↦ t.insertion ctx position value, hrefused₀]
    · rw [modifyTable_apply, State.table_eq h₀, Table.insert, hrefused₀]
      rfl
  rw [insert_apply, hheld]

/-- A removal that is refused leaves the state. -/
theorem remove_refused (h : s.heap.table? r = some t) {e : Error}
    (hrefused : t.removal s.context position = .error e) :
    remove r position s = (.error e, s) := by
  let s₀ : State σ := { s with held := .table r :: s.held }
  have h₀ : s₀.heap.table? r = some t := h
  have hrefused₀ : t.removal s₀.context position = .error e := hrefused
  have hheld : removeHeld r position s₀ = (.error e, s₀) := by
    unfold removeHeld
    rw [bind_apply, get_apply]
    dsimp only
    split
    · rw [bind_apply, lookFor_apply h₀ fun ctx t ↦ t.removal ctx position, hrefused₀]
    · rw [modifyTable_apply, State.table_eq h₀, Table.remove, hrefused₀]
      rfl
  rw [remove_apply, hheld]

/-- A removal that leaves the table leaves the state. -/
theorem remove_unchanged (h : s.heap.table? r = some t) {v : Value}
    (hunchanged : t.removal s.context position = .ok (.inArray v t)) :
    remove r position s = (.ok v, s) := by
  let s₀ : State σ := { s with held := .table r :: s.held }
  have h₀ : s₀.heap.table? r = some t := h
  have hunchanged₀ : t.removal s₀.context position = .ok (.inArray v t) := hunchanged
  have hheld : removeHeld r position s₀ = (.ok v, s₀) := by
    unfold removeHeld
    rw [bind_apply, get_apply]
    dsimp only
    split
    · rw [bind_apply, lookFor_apply h₀ fun ctx t ↦ t.removal ctx position, hunchanged₀]
      dsimp only
      rw [bind_apply, modify_apply]
      dsimp only
      rw [State.setTable_self h₀]
      rfl
    · rw [modifyTable_apply, State.table_eq h₀, Table.remove, hunchanged₀]
      show (Except.ok v, s₀.setTable r t) = _
      rw [State.setTable_self h₀]
  rw [remove_apply, hheld]

/-- The errors with which a shift can end: the table is too large, or was made for more entries than
there are names of slots. -/
def Overflows {α : Type} (hint : Nat) (result : Except Error α) : Prop :=
  result = .error .tableOverflow ∨ result = .error (.fault .noSlot) ∧ 2 ^ 32 < hint

/-- What an insertion into the table `t` with the name `r` comes to. -/
structure InsertShifts (hint : Nat) (s : State σ) (r : Ref) (t : Table) (position : Int64)
    (value : Value) : Prop where
  refused : position ≠ 0 → position.toInt < 1 ∨ t.length s.context + 1 < position.toInt →
    ∃ e : Error, e.kind = .index ∧ insert r position value s = (.error e, s)
  shifted : ∀ first : Nat, 1 ≤ first → first ≤ t.length s.context + 1 →
    first = Table.insertPosition (t.length s.context) position →
    ∃ result s', insert r position value s = (result, s') ∧ s.Follows r s' ∧
      ((result = .ok () ∧ ∃ u, s'.heap.table? r = some u ∧ ∀ key k, key.key? = some k →
          u.get s'.context key = Table.shiftedUp (t.survivors s.context s'.context) first
            (t.length s.context + 1 - first) value k) ∨
        Overflows hint result)

/-- What a removal from the table `t` with the name `r` comes to. -/
structure RemoveShifts (hint : Nat) (s : State σ) (r : Ref) (t : Table) (position : Int64) :
    Prop where
  refused : position ≠ 0 → position.toInt < 1 ∨ t.length s.context + 1 < position.toInt →
    ∃ e : Error, e.kind = .index ∧ remove r position s = (.error e, s)
  empty : position = 0 → t.length s.context = 0 → remove r position s = (.ok .nil, s)
  shifted : ∀ first : Nat, 1 ≤ first → first ≤ t.length s.context + 1 →
    first = Table.removePosition (t.length s.context) position →
    t.length s.context ≤ 2 ^ 31 ∨ 2 ^ 31 + 1 < first →
    ∃ result s', remove r position s = (result, s') ∧ s.Follows r s' ∧
      ((result = .ok (t.get s.context (.int (Int64.ofNat first))) ∧
          ∃ u, s'.heap.table? r = some u ∧ ∀ key k, key.key? = some k →
            u.get s'.context key = Table.shiftedDown (t.survivors s.context s'.context) first
              (t.length s.context - first) k) ∨
        Overflows hint result)

section

variable {hint : Nat} (h : s.heap.table? r = some t)
  (hreaches : Table.Reaches Value.hash hint s.moment t) (hsize : t.array.size ≤ 2 ^ 31)

include hreaches in
/-- The errors of a shift come from the size of the table. -/
theorem overflows_of_unfit {α : Type} {result : Except Error α} {e : Error}
    (hresult : result = .error e) (hunfit : t.Unfit e) : Overflows hint result := by
  subst hresult
  rcases hunfit with rfl | ⟨rfl, hnames⟩
  · exact .inl rfl
  · have hlimit := (hreaches.sound Value.rawEq_hash).2
    exact .inr ⟨rfl, Table.lt_hint_of_lt_bucketLimit (hnames.trans_le hlimit)⟩

include h hreaches hsize

/-- An insertion shifts. -/
theorem insert_shifts (hvalue : value.present s.heap.alive = true) (position : Int64) :
    InsertShifts hint s r t position value where
  refused := fun hne hout ↦ by
    have hs := (hreaches.sound Value.rawEq_hash).1
    have hposition : Table.insertPosition (t.length s.context) position = position.toInt :=
      if_neg hne
    obtain ⟨-, herror⟩ | ⟨first, count, hfirst, hsum, heq, -⟩ :=
      hs.insertion_cases Value.rawEq_hash hsize (Value.named_of_present (m := s.moment) hvalue)
        position rfl
    · exact ⟨_, rfl, insert_refused h herror⟩
    · have hlength : t.length (s.moment.context Value.hash) = t.length s.context := rfl
      rw [hlength] at hsum heq
      rw [hposition] at heq
      omega
  shifted := fun first hpos hle hfirst ↦ by
    have hs := (hreaches.sound Value.rawEq_hash).1
    let s₀ : State σ := { s with held := value :: .table r :: s.held }
    cases hinsert : insertHeld r position value s₀ with
    | mk result s₁ =>
      obtain ⟨hfollows, u, hu, hinserting⟩ :=
        insertHeld_inserting (s := s₀) h (by simp [s₀]) hinsert
      have hpresent := hfollows.present value List.mem_cons_self hvalue
      have hscope : s.Follows r { s₁ with held := s.held } :=
        hfollows.inScope fun v hv ↦ by simp [hv]
      refine ⟨result, { s₁ with held := s.held }, by rw [insert_apply, hinsert], hscope, ?_⟩
      have hnamed : value.Named s.moment.fresh := Value.named_of_present (m := s.moment) hvalue
      have hinserting' : Table.Inserting Value.hash s.moment t position value result s₁.moment u :=
        hinserting
      have hlength : t.length (s.moment.context Value.hash) = t.length s.context := rfl
      rcases hinserting'.shifts hs Value.rawEq_hash hsize hnamed hlength (by omega) (by omega)
        hpresent with ⟨rfl, hvalues⟩ | ⟨e, hresult, hunfit⟩
      · refine .inl ⟨rfl, u, hu rfl, fun key k hkey ↦ ?_⟩
        have hk := Value.stored_of_key? hkey
        rw [← hfirst, Int.toNat_natCast] at hvalues
        have hget : u.get (s₁.moment.context Value.hash) key =
            u.get (s₁.moment.context Value.hash) k := Table.get_of_key? _ _ hkey
        refine hget.trans ((hvalues k hk).trans ?_)
        exact Table.shiftedUp_congr (fun l hl ↦ hs.get_later hscope.le Value.rawEq_hash hl) _ _ _ hk
      · exact .inr (overflows_of_unfit hreaches hresult hunfit)

/-- A removal shifts. -/
theorem remove_shifts (position : Int64) : RemoveShifts hint s r t position where
  refused := fun hne hout ↦ by
    have hs := (hreaches.sound Value.rawEq_hash).1
    have hposition : Table.removePosition (t.length s.context) position = position.toInt :=
      if_neg hne
    have hlength : t.length (s.moment.context Value.hash) = t.length s.context := rfl
    obtain ⟨-, herror⟩ | ⟨hzero, -⟩ | ⟨first, count, hfirst, hsum, heq, -⟩ :=
      hs.removal_cases hsize position hlength
    · exact ⟨_, rfl, remove_refused h herror⟩
    · exact absurd hzero hne
    · rw [hposition] at heq
      omega
  empty := by
    rintro rfl hzero
    have hremoval : t.removal s.context 0 = .ok (.inArray .nil t) := by
      rw [Table.removal_eq s.context t 0 hzero rfl, if_pos ⟨rfl, rfl⟩]
    exact remove_unchanged h hremoval
  shifted := fun first hpos hle hfirst hlimit ↦ by
    have hs := (hreaches.sound Value.rawEq_hash).1
    let s₀ : State σ := { s with held := .table r :: s.held }
    cases hremove : removeHeld r position s₀ with
    | mk result s₁ =>
      obtain ⟨hfollows, u, hu, hremoving⟩ := removeHeld_removing (s := s₀) h (by simp [s₀]) hremove
      have hscope : s.Follows r { s₁ with held := s.held } :=
        hfollows.inScope fun v hv ↦ by simp [hv]
      refine ⟨result, { s₁ with held := s.held }, by rw [remove_apply, hremove], hscope, ?_⟩
      have hremoving' : Table.Removing Value.hash s.moment t position result s₁.moment u :=
        hremoving
      have hlength : t.length (s.moment.context Value.hash) = t.length s.context := rfl
      rcases hremoving'.shifts hs Value.rawEq_hash hsize hlength (by omega) (by omega)
        (by omega) with ⟨hresult, hvalues⟩ | ⟨e, hresult, hunfit⟩
      · rw [← hfirst] at hresult hvalues
        refine .inl ⟨hresult, u, hu _ hresult, fun key k hkey ↦ ?_⟩
        have hk := Value.stored_of_key? hkey
        have hget : u.get (s₁.moment.context Value.hash) key =
            u.get (s₁.moment.context Value.hash) k := Table.get_of_key? _ _ hkey
        refine hget.trans ((hvalues k hk).trans ?_)
        exact Table.shiftedDown_congr (fun l hl ↦ hs.get_later hscope.le Value.rawEq_hash hl) _ _ hk
      · exact .inr (overflows_of_unfit hreaches hresult hunfit)

/-- Insertions and removals of an instance are list shifts, whichever way they take. In a table with
weak handles an entry may be lost on the way, with the object that only the table held; nothing else
is. -/
theorem insert_and_remove_shift :
    (∀ (position : Int64) (value : Value), value.present s.heap.alive = true →
      InsertShifts hint s r t position value) ∧
    (∀ position : Int64, RemoveShifts hint s r t position) ∧
    ∀ (after : Context) (key : Value), t.mode = .strong ∨
      key.present after.alive = true ∧ (t.get s.context key).present after.alive = true →
      t.survivors s.context after key = t.get s.context key :=
  ⟨fun position _ hvalue ↦ insert_shifts h hreaches hsize hvalue position,
    fun position ↦ remove_shifts h hreaches hsize position,
    fun _ _ hkept ↦ Table.survivors_eq_get hkept⟩

end

/-! ## A value that is lost -/

end

/-- An instance with five tables and two strings, all of which are held. -/
def crowded : State Unit :=
  { State.initial Options.default () with
    heap := [.table (.withHashSize 2), .table (.withHashSize 0), .table (.withHashSize 0),
      .table (.withHashSize 0), .table (.withHashSize 0), .text, .text].foldl Heap.allocate .empty
    held := [.table 0, .table 1, .table 2, .table 3, .table 4] }

/-- The table 0 gets weak values. Its list has the table 3 as its only value, and its other entry
has the table 2 as its key, which holds the table 3 too. Then only the table 0 is held, so that the
value of the other entry, the table 4, is released. -/
def fading : State Unit :=
  let s := (rawSet (.table 1) (.str ⟨Utf8.ofString "__mode", 5⟩) (.str ⟨Utf8.ofString "v", 6⟩)
    crowded).2
  let s := (setTableMetatable 0 (some 1) s).2
  let s := (rawSet (.table 2) (.int 1) (.table 3) s).2
  let s := (rawSet (.table 0) (.int 1) (.table 3) s).2
  let s := (rawSet (.table 0) (.table 2) (.table 4) s).2
  { s with held := [.table 0] }.settle

/-- All its tables are reached. -/
theorem reached_fading : fading.Reached := by
  have hcrowded : crowded.Reached :=
    (((((((State.reached_initial Options.default ()).allocateTable 2).allocateTable
      0).allocateTable 0).allocateTable 0).allocateTable 0).allocateText).allocateText
  have hmode := reached_after_rawSet hcrowded 1 (.str ⟨Utf8.ofString "__mode", 5⟩)
    (.str ⟨Utf8.ofString "v", 6⟩) (by decide +kernel)
  have hweak := reached_after_setTableMetatable hmode 0 (some 1) (by decide +kernel)
  have hkey := reached_after_rawSet hweak 2 (.int 1) (.table 3) (by decide +kernel)
  have hlist := reached_after_rawSet hkey 0 (.int 1) (.table 3) (by decide +kernel)
  have hother := reached_after_rawSet hlist 0 (.table 2) (.table 4) (by decide +kernel)
  exact (hother.withHeld [.table 0]).settle

/-- The table 0 and what is known of it. -/
theorem exists_fading : ∃ t hint, fading.heap.table? 0 = some t ∧
    Table.Reaches Value.hash hint fading.moment t ∧ t.array.size ≤ 2 ^ 31 ∧
    t.mode = ⟨false, true⟩ ∧ t.length fading.context = 1 ∧
    t.get fading.context (.int 1) = .table 3 := by
  obtain ⟨t, ht⟩ := Option.isSome_iff_exists.mp
    (show (fading.heap.table? 0).isSome = true by decide +kernel)
  obtain ⟨hint, hreaches⟩ := reached_fading 0 t ht
  have hfacts : (fading.table 0).array.size ≤ 2 ^ 31 ∧ (fading.table 0).mode = ⟨false, true⟩ ∧
      (fading.table 0).length fading.context = 1 ∧
      (fading.table 0).get fading.context (.int 1) = .table 3 := by decide +kernel
  rw [State.table_eq ht] at hfacts
  exact ⟨t, hint, ht, hreaches, hfacts⟩

/-- The insertion makes the table forget its other entry, and with that entry goes the value of the
list: the key after the inserted value has lost it. -/
theorem insert_loses_value : ∃ t hint s' u, fading.heap.table? 0 = some t ∧
    Table.Reaches Value.hash hint fading.moment t ∧ t.length fading.context = 1 ∧
    t.get fading.context (.int 1) = .table 3 ∧ insert 0 1 (.int 10) fading = (.ok (), s') ∧
    s'.heap.table? 0 = some u ∧
    u.get s'.context (.int 1) = .int 10 ∧ u.get s'.context (.int 2) = .nil := by
  obtain ⟨t, hint, ht, hreaches, -, -, hlength, hvalue⟩ := exists_fading
  have hfacts : (insert 0 1 (.int 10) fading).1.isOk ∧
      ((insert 0 1 (.int 10) fading).2.heap.table? 0).isSome ∧
      (insert 0 1 (.int 10) fading).2.rawGet 0 (.int 1) = .int 10 ∧
      (insert 0 1 (.int 10) fading).2.rawGet 0 (.int 2) = .nil := by decide +kernel
  cases hinsert : insert 0 1 (.int 10) fading with
  | mk result s' =>
    rw [hinsert] at hfacts
    obtain ⟨hdone, hsome, hvalues⟩ := hfacts
    obtain ⟨u, hu⟩ := Option.isSome_iff_exists.mp hsome
    simp only [State.rawGet, State.table_eq hu] at hvalues
    cases result with
    | error e => cases hdone
    | ok _ => exact ⟨t, hint, s', u, ht, hreaches, hlength, hvalue, rfl, hu, hvalues⟩

/-- Inserting a value before the list of the table 0, and removing its value. -/
theorem insert_and_remove_shift_of_fading : ∃ t hint, fading.heap.table? 0 = some t ∧
    t.mode = ⟨false, true⟩ ∧ t.length fading.context = 1 ∧
    InsertShifts hint fading 0 t 1 (.int 10) ∧ RemoveShifts hint fading 0 t 1 := by
  obtain ⟨t, hint, ht, hreaches, hsize, hmode, hlength, -⟩ := exists_fading
  obtain ⟨hinsert, hremove, -⟩ := insert_and_remove_shift ht hreaches hsize
  exact ⟨t, hint, ht, hmode, hlength, hinsert 1 (.int 10) rfl, hremove 1⟩

end Act

end LuaData
