import LuaData.Proofs.Reachable
import LuaData.Proofs.Settling
import LuaData.State.Metatable

/-!
# Tables in an instance

A write of an instance is the write of its table along the moments that the heap goes through: what
a step of the write lets go is released before the next one, and the key and the value are held
until the end. `Act.rawSet_eq_store` says so. So all that is known about the tables that are reached
holds of the tables of an instance: `Act.reached_rawSet` says that its writes leave every table a
reached one.
-/

namespace LuaData

variable {σ α : Type} {s s' s'' : State σ} {r : Ref} {t u : Table} {key value : Value}

/-- A write that is over after its first attempt. -/
def Course.once {m n : Moment} (h : m ≤ n) : Course := ⟨m, n, n, n, h, le_refl n, le_refl n⟩

namespace State

/-- The moment of a state. -/
def moment (s : State σ) : Moment := s.heap.moment

/-- The table of a live cell. -/
theorem table?_of_cell? (h : s.heap.cell? r = some (.table t)) : s.heap.table? r = some t := by
  rw [Heap.table?, h]

/-- The table with a name. -/
theorem table_eq (h : s.heap.table? r = some t) : s.table r = t := by
  rw [table, h]
  rfl

/-- A name without a cell reads as the empty table. -/
theorem table_of_not_lt (h : ¬ r < s.heap.cells.size) : s.table r = .empty := by
  have hcell : s.heap.table? r = none := by
    rw [Heap.table?, Heap.cell?, Array.getElem?_eq_none (Nat.le_of_not_lt h)]
    rfl
  rw [table, hcell, Option.getD_none]

/-- The state `s'` comes after `s` in an operation on the table `r`: cells have been released, but
not the values that are held, and no other cell has changed. -/
structure Follows (r : Ref) (s s' : State σ) : Prop where
  held : s'.held = s.held
  le : s.moment ≤ s'.moment
  present : ∀ v ∈ s.held, v.present s.heap.alive = true → v.present s'.heap.alive = true
  others : ∀ q cell, q ≠ r → s'.heap.cell? q = some cell → s.heap.cell? q = some cell

namespace Follows

/-- Nothing has happened. -/
theorem refl (r : Ref) (s : State σ) : Follows r s s :=
  ⟨rfl, le_refl _, fun _ _ h ↦ h, fun _ _ _ h ↦ h⟩

/-- One after the other. -/
theorem trans (h : Follows r s s') (h' : Follows r s' s'') : Follows r s s'' where
  held := h'.held.trans h.held
  le := h.le.trans h'.le
  present := fun v hv hpresent ↦ h'.present v (h.held ▸ hv) (h.present v hv hpresent)
  others := fun q cell hq hcell ↦ h.others q cell hq (h'.others q cell hq hcell)

end Follows

/-- A replaced table is found. -/
theorem table?_setTable (h : s.heap.table? r = some t) (u : Table) :
    (s.setTable r u).heap.table? r = some u := by
  have halive : s.heap.alive r = true := by
    rw [Heap.alive, Heap.cell?_of_table? h]
    rfl
  exact table?_of_cell? (Heap.cell?_update_self _ _ halive)

/-- Replacing a table releases nothing. -/
theorem moment_setTable (h : s.heap.table? r = some t) (u : Table) :
    (s.setTable r u).moment = s.moment := by
  have halive : (s.setTable r u).heap.alive = s.heap.alive := by
    funext q
    by_cases hq : r = q
    · subst hq
      rw [Heap.alive, Heap.cell?_of_table? (table?_setTable h u), Heap.alive,
        Heap.cell?_of_table? h]
      rfl
    · show ((s.heap.update r _).cell? q).isSome = _
      rw [Heap.cell?_update_of_ne _ _ hq]
      rfl
  have hfresh : (s.setTable r u).heap.fresh = s.heap.fresh := Array.size_setIfInBounds
  unfold moment Heap.moment
  simp only [halive, hfresh]

/-- Replacing the table leaves the other cells. -/
theorem follows_setTable (h : s.heap.table? r = some t) (u : Table) :
    Follows r s (s.setTable r u) where
  held := rfl
  le := (moment_setTable h u).symm ▸ le_refl _
  present := fun v _ hpresent ↦ by
    have halive := congrArg Moment.alive (moment_setTable h u)
    show v.present (s.setTable r u).moment.alive = true
    rw [halive]
    exact hpresent
  others := fun q cell hq hcell ↦ by
    rwa [← Heap.cell?_update_of_ne s.heap (.table u) (Ne.symm hq)]

/-- The values that are held are roots. -/
theorem mem_roots_of_held {v : Value} {q : Ref} (hv : v ∈ s.held) (hq : v.ref? = some q) :
    q ∈ s.roots :=
  List.mem_append.mpr (.inl (List.mem_append.mpr (.inr (List.mem_filterMap.mpr ⟨v, hv, hq⟩))))

/-- A table that is held is not released. -/
theorem table?_settle (h : s.heap.table? r = some t) (hheld : .table r ∈ s.held) :
    s.settle.heap.table? r = some t :=
  table?_of_cell? (Heap.cell?_settle_of_root (mem_roots_of_held hheld rfl) (Heap.cell?_of_table? h))

/-- Settling leaves what is held. -/
theorem follows_settle (r : Ref) (s : State σ) : Follows r s s.settle where
  held := rfl
  le := (Heap.releases_settle s.heap s.roots).moment_le
  present := fun v hv hpresent ↦ by
    unfold Value.present at hpresent ⊢
    cases hq : v.ref? with
    | none => rfl
    | some q =>
      rw [hq] at hpresent
      obtain ⟨cell, hcell⟩ := Option.isSome_iff_exists.mp hpresent
      exact Option.isSome_iff_exists.mpr
        ⟨cell, Heap.cell?_settle_of_root (mem_roots_of_held hv hq) hcell⟩
  others := fun q cell _ hcell ↦ (Heap.releases_settle s.heap s.roots).old q cell hcell

end State

namespace Act

/-- One action after the other. -/
theorem bind_apply {β : Type} (act : Act σ α) (f : α → Act σ β) (s : State σ) :
    (act >>= f) s =
      match act s with
      | (.ok a, s') => f a s'
      | (.error e, s') => (.error e, s') := by
  show ExceptT.bind act f s = _
  unfold ExceptT.bind
  show ExceptT.bindCont f (act s).1 (act s).2 = _
  cases act s with
  | mk a s' => cases a <;> rfl

/-- A computation that may fail leaves the state. -/
theorem lift_apply (x : Except Error α) (s : State σ) : (liftM x : Act σ α) s = (x, s) := rfl

/-- The state is read. -/
theorem get_apply (s : State σ) : (get : Act σ (State σ)) s = (.ok s, s) := rfl

/-- The state is changed. -/
theorem modify_apply (f : State σ → State σ) (s : State σ) :
    (modify f : Act σ PUnit) s = (.ok (), f s) := rfl

/-- Steps that leave the state are taken outside of it. -/
theorem foldlM_lift_apply {α β : Type} (f : β → α → Except Error β) (l : List α) (b : β)
    (s : State σ) :
    (l.foldlM (fun b a ↦ (liftM (f b a) : Act σ β)) b) s = (l.foldlM f b, s) := by
  induction l generalizing b with
  | nil => rfl
  | cons a l ih =>
    rw [List.foldlM_cons, List.foldlM_cons, bind_apply, lift_apply]
    cases f b a with
    | error e => rfl
    | ok b' => exact ih b'

/-- Clearing the way to a key and settling the heap. -/
def readied (r : Ref) (t : Table) (s : State σ) (ready : Table) : State σ :=
  if ready.arena.counts != t.arena.counts then (s.setTable r ready).settle else s.setTable r ready

/-- What clearing the way to a key leaves of a state. -/
theorem follows_readied (h : s.heap.table? r = some t) (hheld : .table r ∈ s.held) (ready : Table) :
    (readied r t s ready).heap.table? r = some ready ∧ s.Follows r (readied r t s ready) := by
  have hset := State.follows_setTable h ready
  have hready := State.table?_setTable h ready
  unfold readied
  split
  · exact ⟨State.table?_settle hready hheld, hset.trans (State.follows_settle r _)⟩
  · exact ⟨hready, hset⟩

/-- Settling the heap if a table has weak handles. -/
def settledFor (r : Ref) (s : State σ) : State σ :=
  if (s.table r).mayExpire then s.settle else s

/-- What settling leaves of a state. -/
theorem follows_settledFor (h : s.heap.table? r = some t) (hheld : .table r ∈ s.held) :
    (settledFor r s).heap.table? r = some t ∧ s.Follows r (settledFor r s) := by
  unfold settledFor
  split
  · exact ⟨State.table?_settle h hheld, State.follows_settle r s⟩
  · exact ⟨h, .refl r s⟩

/-- The heap is settled if the table has weak handles. -/
theorem settleFor_apply (s : State σ) (r : Ref) : settleFor r s = (.ok (), settledFor r s) := by
  unfold settleFor settledFor
  rw [bind_apply]
  show (if (s.table r).mayExpire = true then settle else pure () : Act σ Unit) s = _
  split <;> rfl

variable [Hashing]

/-- A change of a table is made unless it fails. -/
theorem modifyTable_apply (s : State σ) (r : Ref) (f : Context → Table → Except Error (α × Table)) :
    modifyTable r f s =
      match f s.context (s.table r) with
      | .error e => (.error e, s)
      | .ok (a, t) => (.ok a, s.setTable r t) := by
  unfold modifyTable
  rw [bind_apply]
  show (bind (liftM (f s.context (s.table r)) : Act σ _) _ : Act σ α) s = _
  rw [bind_apply, lift_apply]
  cases f s.context (s.table r) <;> rfl

/-- The second half of an attempt to write. -/
def placed (r : Ref) (key value : Value) (s : State σ) : Except Error Bool × State σ :=
  match (s.table r).place s.context key value with
  | .error e => (.error e, s)
  | .ok (.stored u) => (.ok true, s.setTable r u)
  | .ok (.full u) => (.ok false, s.setTable r u)

/-- The second half changes the table unless it fails. -/
theorem placed_apply (s : State σ) (r : Ref) (key value : Value) :
    modifyTable r (fun ctx t ↦ do
      match ← t.place ctx key value with
      | .stored t => return (true, t)
      | .full t => return (false, t)) s = placed r key value s := by
  rw [modifyTable_apply, placed]
  cases (s.table r).place s.context key value with
  | error e => rfl
  | ok placement => cases placement <;> rfl

/-- An attempt to write, step by step. -/
theorem place_apply (h : s.heap.table? r = some t) (key value : Value) :
    place r key value s =
      match t.makeReady s.context key value with
      | .error e => (.error e, s)
      | .ok ready => placed r key value (readied r t s ready) := by
  unfold place
  rw [bind_apply, modifyTable_apply, State.table_eq h]
  cases t.makeReady s.context key value with
  | error e => rfl
  | ok ready =>
    show (if (ready.arena.counts != t.arena.counts) = true then settle >>= fun _ ↦ modifyTable r _
      else modifyTable r _ : Act σ Bool) (s.setTable r ready) =
        placed r key value (readied r t s ready)
    by_cases hcounts : (ready.arena.counts != t.arena.counts) = true
    · rw [if_pos hcounts, bind_apply, readied, if_pos hcounts]
      exact placed_apply _ r key value
    · rw [if_neg hcounts, readied, if_neg hcounts]
      exact placed_apply _ r key value

/-- An attempt to write is that of the table, from the moment when it begins to the moment when it
ends. -/
theorem place_eq_tryStore (h : s.heap.table? r = some t) (hheld : .table r ∈ s.held)
    (key value : Value) {s' : State σ} {result : Except Error Bool}
    (hplace : place r key value s = (result, s')) :
    s.Follows r s' ∧ ∃ u, s'.heap.table? r = some u ∧
      t.tryStore Value.hash s.moment s'.moment key value = (result, u) := by
  rw [place_apply h] at hplace
  unfold Table.tryStore
  have hcontext : t.makeReady (s.moment.context Value.hash) key value =
      t.makeReady s.context key value := rfl
  rw [hcontext]
  cases hready : t.makeReady s.context key value with
  | error e =>
    rw [hready] at hplace
    cases hplace
    exact ⟨.refl r s, t, h, rfl⟩
  | ok ready =>
    rw [hready] at hplace
    obtain ⟨htable, hfollows⟩ := follows_readied h hheld ready
    have hplace' : placed r key value (readied r t s ready) = (result, s') := hplace
    clear hplace
    generalize readied r t s ready = s₁ at htable hfollows hplace'
    unfold placed at hplace'
    rw [State.table_eq htable] at hplace'
    have hset : ∀ u, ready.place (((s₁.setTable r u).moment).context Value.hash) key value =
        ready.place s₁.context key value := fun u ↦ by
      rw [State.moment_setTable htable]
      rfl
    cases hplaced : ready.place s₁.context key value with
    | error e =>
      rw [hplaced] at hplace'
      have hplaced' : ready.place (s₁.moment.context Value.hash) key value = .error e := hplaced
      cases hplace'
      refine ⟨hfollows, ready, htable, ?_⟩
      simp only [hplaced']
    | ok placement =>
      rw [hplaced] at hplace'
      cases placement with
      | stored u =>
        cases hplace'
        refine ⟨hfollows.trans (State.follows_setTable htable u), u,
          State.table?_setTable htable u, ?_⟩
        simp only [hset, hplaced]
      | full u =>
        cases hplace'
        refine ⟨hfollows.trans (State.follows_setTable htable u), u,
          State.table?_setTable htable u, ?_⟩
        simp only [hset, hplaced]

/-- A write under a stored key, whose table, key and value are held. -/
def write (r : Ref) (key value : Value) : Act σ Unit := do
  unless ← place r key value do
    modifyTable r fun ctx t ↦ return ((), ← t.rehash ctx (some key))
    settleFor r
    unless ← place r key value do
      throw (.fault .noRoom)

/-- The answer of a write that goes by its second attempt. -/
def answered : Except Error Bool → Except Error Unit
  | .error e => .error e
  | .ok true => .ok ()
  | .ok false => .error (.fault .noRoom)

/-- A write under a stored key, step by step. -/
theorem write_apply (s : State σ) (r : Ref) (key value : Value) :
    write r key value s =
      match place r key value s with
      | (.error e, s₁) => (.error e, s₁)
      | (.ok true, s₁) => (.ok (), s₁)
      | (.ok false, s₁) =>
        match (s₁.table r).rehash s₁.context (some key) with
        | .error e => (.error e, s₁)
        | .ok u =>
          match place r key value (settledFor r (s₁.setTable r u)) with
          | (second, s₂) => (answered second, s₂) := by
  have hrehash : ∀ s : State σ, modifyTable r (fun ctx t ↦ do
      return ((), ← t.rehash ctx (some key))) s =
      match (s.table r).rehash s.context (some key) with
      | .error e => (.error e, s)
      | .ok u => (.ok (), s.setTable r u) := by
    intro s
    rw [modifyTable_apply]
    cases (s.table r).rehash s.context (some key) <;> rfl
  unfold write
  rw [bind_apply]
  obtain ⟨result, s₁⟩ := place r key value s
  cases result with
  | error e => rfl
  | ok stored =>
    cases stored with
    | true => rfl
    | false =>
      show (modifyTable r _ >>= fun _ ↦ settleFor r >>= fun _ ↦ place r key value >>= _ :
        Act σ Unit) s₁ = _
      rw [bind_apply, hrehash]
      dsimp only
      cases (s₁.table r).rehash s₁.context (some key) with
      | error e => rfl
      | ok u =>
        show (settleFor r >>= fun _ ↦ place r key value >>= _ : Act σ Unit) (s₁.setTable r u) = _
        rw [bind_apply, settleFor_apply]
        show (place r key value >>= _ : Act σ Unit) (settledFor r (s₁.setTable r u)) = _
        rw [bind_apply]
        dsimp only
        obtain ⟨result, s₂⟩ := place r key value (settledFor r (s₁.setTable r u))
        cases result with
        | error e => rfl
        | ok stored => cases stored <;> rfl

/-- A write holds its table, its key and its value until it ends. -/
theorem rawSet_apply (s : State σ) (r : Ref) (key value : Value) :
    rawSet (.table r) key value s =
      match Table.storedKey key with
      | .error e => (.error e, s)
      | .ok k =>
        match write r k value { s with held := value :: key :: .table r :: s.held } with
        | (result, s') => (result, { s' with held := s.held }) := by
  unfold rawSet inScope
  rw [bind_apply, lift_apply]
  show (match (liftM (Table.storedKey key) >>= _ : Act σ Unit) s with
    | (result, s') => (result, { s' with held := s.held })) = _
  rw [bind_apply, lift_apply]
  cases Table.storedKey key with
  | error e => rfl
  | ok k => rfl

/-- A write that makes room and then attempts again is that of the table. -/
theorem write_again {m : Moment} {u v : Table} {second : Except Error Bool} {s' : State σ}
    (hu : s.heap.table? r = some u) (hheld : .table r ∈ s.held) (hle : m ≤ s.moment)
    (htry : t.tryStore Value.hash m s.moment key value = (.ok false, u))
    (hrehash : u.rehash s.context (some key) = .ok v)
    (hagain : place r key value (settledFor r (s.setTable r v)) = (second, s')) :
    s.Follows r s' ∧ ∃ (c : Course) (w : Table), c.clear = m ∧ c.last = s'.moment ∧
      s'.heap.table? r = some w ∧ t.storeKey Value.hash c key value = (answered second, w) := by
  have hrehash' : u.rehash (s.moment.context Value.hash) (some key) = .ok v := hrehash
  have hset := State.follows_setTable hu v
  obtain ⟨hv, hsettled⟩ := follows_settledFor (State.table?_setTable hu v) (hset.held ▸ hheld)
  have hle' : s.moment ≤ (settledFor r (s.setTable r v)).moment :=
    State.moment_setTable hu v ▸ hsettled.le
  have hfollows := hset.trans hsettled
  generalize settledFor r (s.setTable r v) = s₁ at hagain hv hle' hfollows
  obtain ⟨hfollows', w, hw, htry'⟩ := place_eq_tryStore hv (hfollows.held ▸ hheld) key value hagain
  let c : Course := ⟨m, s.moment, s₁.moment, s'.moment, hle, hle', hfollows'.le⟩
  refine ⟨hfollows.trans hfollows', c, w, rfl, rfl, hw, ?_⟩
  simp only [Table.storeKey, c, htry, hrehash', htry']
  cases second with
  | error e => rfl
  | ok stored => cases stored <;> rfl

/-- A write under a stored key is that of the table, along the moments of the heap. -/
theorem write_eq_storeKey (h : s.heap.table? r = some t) (hheld : .table r ∈ s.held)
    {s' : State σ} {result : Except Error Unit} (hwrite : write r key value s = (result, s')) :
    s.Follows r s' ∧ ∃ (c : Course) (u : Table), c.clear = s.moment ∧ c.last = s'.moment ∧
      s'.heap.table? r = some u ∧ t.storeKey Value.hash c key value = (result, u) := by
  rw [write_apply] at hwrite
  cases hplace : place r key value s with
  | mk first s₁ =>
    rw [hplace] at hwrite
    obtain ⟨hfollows, u, hu, htry⟩ := place_eq_tryStore h hheld key value hplace
    cases first with
    | error e =>
      cases hwrite
      refine ⟨hfollows, .once hfollows.le, u, rfl, rfl, hu, ?_⟩
      simp only [Table.storeKey, Course.once, htry]
    | ok stored =>
      cases stored with
      | true =>
        cases hwrite
        refine ⟨hfollows, .once hfollows.le, u, rfl, rfl, hu, ?_⟩
        simp only [Table.storeKey, Course.once, htry]
      | false =>
        dsimp only at hwrite
        rw [State.table_eq hu] at hwrite
        cases hrehash : u.rehash s₁.context (some key) with
        | error e =>
          rw [hrehash] at hwrite
          have hrehash' : u.rehash (s₁.moment.context Value.hash) (some key) = .error e := hrehash
          cases hwrite
          refine ⟨hfollows, .once hfollows.le, u, rfl, rfl, hu, ?_⟩
          simp only [Table.storeKey, Course.once, htry, hrehash']
        | ok v =>
          rw [hrehash] at hwrite
          dsimp only at hwrite
          cases hagain : place r key value (settledFor r (s₁.setTable r v)) with
          | mk second s₂ =>
            rw [hagain] at hwrite
            cases hwrite
            obtain ⟨hfollows', c, w, hclear, hlast, hw, hstore⟩ := write_again hu
              (hfollows.held ▸ hheld) hfollows.le htry hrehash hagain
            exact ⟨hfollows.trans hfollows', c, w, hclear, hlast, hw, hstore⟩

/-- A write of an instance is that of the table, along the moments of the heap. The key and the
value are there until the end. -/
theorem rawSet_eq_store (h : s.heap.table? r = some t) {s' : State σ} {result : Except Error Unit}
    (hset : rawSet (.table r) key value s = (result, s')) :
    s.Follows r s' ∧
      (∀ v ∈ [key, value], v.present s.heap.alive = true → v.present s'.heap.alive = true) ∧
      ∃ (c : Course) (u : Table), c.clear = s.moment ∧ c.last = s'.moment ∧
        s'.heap.table? r = some u ∧ t.store Value.hash c key value = (result, u) := by
  rw [rawSet_apply] at hset
  unfold Table.store
  cases hkey : Table.storedKey key with
  | error e =>
    rw [hkey] at hset
    cases hset
    exact ⟨.refl r s, fun _ _ hv ↦ hv, .still s.moment, t, rfl, rfl, h, rfl⟩
  | ok k =>
    rw [hkey] at hset
    dsimp only at hset
    cases hwrite : write r k value { s with held := value :: key :: .table r :: s.held } with
    | mk result' s₁ =>
      rw [hwrite] at hset
      cases hset
      have hheld : .table r ∈ value :: key :: .table r :: s.held := by simp
      obtain ⟨hfollows, c, u, hclear, hlast, hu, hstore⟩ := write_eq_storeKey
        (s := { s with held := value :: key :: .table r :: s.held }) h hheld hwrite
      refine ⟨⟨rfl, hfollows.le, fun v hv ↦ hfollows.present v (by simp [hv]), hfollows.others⟩, ?_,
        c, u, hclear, hlast, hu, hstore⟩
      intro v hv
      refine hfollows.present v ?_
      rcases List.mem_cons.mp hv with rfl | hv
      · simp
      · simp [List.mem_singleton.mp hv]

end Act

/-! ## The tables of an instance -/

variable [Hashing]

/-- Every table of the instance is one that is reached. -/
def State.Reached (s : State σ) : Prop :=
  ∀ r t, s.heap.table? r = some t → ∃ hint, Table.Reaches Value.hash hint s.moment t

namespace State

/-- The tables of an instance are well formed. -/
theorem Reached.sound (hs : s.Reached) (h : s.heap.table? r = some t) :
    t.Sound Value.hash s.moment := by
  obtain ⟨hint, hreaches⟩ := hs r t h
  exact (hreaches.sound Value.rawEq_hash).1

/-- An operation on a table leaves the tables reached if it leaves that one reached. -/
theorem Reached.of_follows (hs : s.Reached) (hfollows : s.Follows r s')
    (hr : ∀ u, s'.heap.table? r = some u → ∃ hint, Table.Reaches Value.hash hint s'.moment u) :
    s'.Reached := by
  intro q u hu
  by_cases hq : q = r
  · subst hq
    exact hr u hu
  · have hold := hfollows.others q _ hq (Heap.cell?_of_table? hu)
    obtain ⟨hint, hreaches⟩ := hs q u (table?_of_cell? hold)
    exact ⟨hint, hreaches.wait hfollows.le⟩

/-- A new instance has no tables. -/
theorem reached_initial (options : Options) (host : σ) : (initial options host).Reached := by
  intro r t h
  cases Heap.cell?_of_table? h

/-- A new cell leaves the tables reached, if it is a new table or none. -/
theorem Reached.allocate (hs : s.Reached) {cell : Cell}
    (hcell : ∀ t, cell = .table t → ∃ hint, t = .withHashSize hint) :
    Reached { s with heap := s.heap.allocate cell } := by
  have hle : s.heap.moment ≤ (s.heap.allocate cell).moment := by
    refine ⟨(Nat.le_succ _).trans_eq (Array.size_push ..).symm, fun q hq halive ↦ ?_⟩
    have hold : (s.heap.allocate cell).cell? q = s.heap.cell? q :=
      (Heap.cell?_allocate s.heap cell q).trans (if_neg (Nat.ne_of_lt hq))
    exact (congrArg Option.isSome hold).symm.trans halive
  intro q u hu
  have hq := Heap.cell?_of_table? hu
  rw [Heap.cell?_allocate] at hq
  split at hq
  · obtain ⟨hint, rfl⟩ := hcell u (Option.some.inj hq)
    exact ⟨hint, .new _⟩
  · obtain ⟨hint, hreaches⟩ := hs q u (table?_of_cell? hq)
    exact ⟨hint, hreaches.wait hle⟩

/-- A new table leaves the tables reached. -/
theorem Reached.allocateTable (hs : s.Reached) (hint : Nat) :
    Reached { s with heap := s.heap.allocate (.table (.withHashSize hint)) } :=
  hs.allocate fun _ h ↦ ⟨hint, (Cell.table.inj h).symm⟩

/-- A new string leaves the tables reached. -/
theorem Reached.allocateText (hs : s.Reached) :
    Reached { s with heap := s.heap.allocate .text } :=
  hs.allocate nofun

/-- What is held does not matter to the tables. -/
theorem Reached.withHeld (hs : s.Reached) (held : List Value) : Reached { s with held } :=
  hs

/-- The metatables of the other kinds do not matter to the tables. -/
theorem Reached.withShared (hs : s.Reached) (shared : SharedMetatables) :
    Reached { s with shared } :=
  hs

/-- Settling leaves the tables reached. -/
theorem Reached.settle (hs : s.Reached) : s.settle.Reached := by
  intro q u hu
  have hreleases := Heap.releases_settle s.heap s.roots
  obtain ⟨hint, hreaches⟩ := hs q u (table?_of_cell? (hreleases.old q _ (Heap.cell?_of_table? hu)))
  exact ⟨hint, hreaches.wait hreleases.moment_le⟩

end State

namespace Act

/-- A write leaves every table of an instance reached. -/
theorem reached_rawSet (hs : s.Reached) (h : s.heap.table? r = some t)
    (hsize : t.array.size ≤ 2 ^ 31)
    (hkey : key.present s.heap.alive = true) (hvalue : value.present s.heap.alive = true)
    {s' : State σ} {result : Except Error Unit}
    (hset : rawSet (.table r) key value s = (result, s')) : s'.Reached := by
  obtain ⟨hfollows, -, c, u, hclear, hlast, hu, hstore⟩ := rawSet_eq_store h hset
  refine hs.of_follows hfollows fun u' hu' ↦ ?_
  obtain rfl := Option.some.inj (hu.symm.trans hu')
  obtain ⟨hint, hreaches⟩ := hs r t h
  have hreaches' : Table.Reaches Value.hash hint c.last (t.store Value.hash c key value).2 :=
    hreaches.store hsize (hclear ▸ le_refl s.moment) (Value.named_of_present (m := s.moment) hkey)
      (Value.named_of_present (m := s.moment) hvalue)
  rw [hstore, hlast] at hreaches'
  exact ⟨hint, hreaches'⟩

/-- What a write leaves of an instance, whatever it comes to. -/
theorem reached_after_rawSet (hs : s.Reached) (r : Ref) (key value : Value)
    (h : (s.heap.table? r).isSome ∧ (s.table r).array.size ≤ 2 ^ 31 ∧
      key.present s.heap.alive ∧ value.present s.heap.alive) :
    State.Reached (rawSet (.table r) key value s).2 := by
  obtain ⟨hsome, hsize, hkey, hvalue⟩ := h
  obtain ⟨t, ht⟩ := Option.isSome_iff_exists.mp hsome
  exact reached_rawSet hs ht (State.table_eq ht ▸ hsize) hkey hvalue rfl

/-- The state in which a table has its new metatable and the old one is let go. -/
def remounted (r : Ref) (metatable : Option Ref) (s : State σ) : State σ :=
  let s : State σ := { s with held := .table r :: s.held }
  (s.setTable r { s.table r with metatable }).settle

/-- A change of the weak mode, step by step. -/
theorem setMode_apply (s : State σ) (r : Ref) (mode : WeakMode) :
    setMode r mode s =
      match (s.table r).setMode s.context mode with
      | .ok u => (.ok (), s.setTable r u)
      | .error e => (.error e, s.setTable r { s.table r with mode }) := by
  unfold setMode
  rw [bind_apply]
  show (match (s.table r).setMode s.context mode with
    | .ok u => set (s.setTable r u)
    | .error e => _ : Act σ Unit) s = _
  cases (s.table r).setMode s.context mode <;> rfl

/-- A change of the metatable lets the old one go before the weak mode is changed. -/
theorem setTableMetatable_apply (s : State σ) (r : Ref) (metatable : Option Ref) :
    setTableMetatable r metatable s =
      match setMode r (s.modeOf metatable) (remounted r metatable s) with
      | (result, s') => (result, { s' with held := s.held }) := by
  unfold setTableMetatable inScope
  rw [bind_apply, get_apply]
  dsimp only
  rw [bind_apply, hold, modify_apply]
  dsimp only
  rw [bind_apply, modify_apply]
  dsimp only
  rw [bind_apply, settle, modify_apply]
  dsimp only [remounted]
  rfl

/-- A change of the metatable that is done leaves every table of an instance reached. -/
theorem reached_setTableMetatable (hs : s.Reached) (h : s.heap.table? r = some t)
    (hsize : t.array.size ≤ 2 ^ 31) {metatable : Option Ref} {s' : State σ}
    (hset : setTableMetatable r metatable s = (.ok (), s')) : s'.Reached := by
  let s₀ : State σ := { s with held := .table r :: s.held }
  have h₀ : s₀.heap.table? r = some t := h
  have hnew := State.table?_setTable h₀ { t with metatable }
  have hfollows := (State.follows_setTable h₀ { t with metatable }).trans (State.follows_settle r _)
  have htable := State.table?_settle hnew (List.mem_cons_self)
  have hremounted : remounted r metatable s = (s₀.setTable r { t with metatable }).settle := by
    rw [remounted, State.table_eq h₀]
  rw [setTableMetatable_apply, setMode_apply, hremounted, State.table_eq htable] at hset
  generalize (s₀.setTable r { t with metatable }).settle = s₁ at hset htable hfollows
  cases hmode : Table.setMode s₁.context { t with metatable } (s.modeOf metatable) with
  | error e =>
    rw [hmode] at hset
    cases hset
  | ok u =>
    rw [hmode] at hset
    cases hset
    have hfollows' := hfollows.trans (State.follows_setTable htable u)
    refine hs.of_follows ⟨rfl, hfollows'.le, fun v hv ↦ hfollows'.present v ?_, hfollows'.others⟩ ?_
    · exact List.mem_cons_of_mem _ hv
    · intro u' hu'
      obtain rfl := Option.some.inj ((State.table?_setTable htable u).symm.trans hu')
      obtain ⟨hint, hreaches⟩ := hs r t h
      refine ⟨hint, ?_⟩
      have hreaches' := hreaches.setMetatable hsize hfollows.le hmode
      rwa [← State.moment_setTable htable u] at hreaches'

/-- What a change of the metatable leaves of an instance, if it is done. -/
theorem reached_after_setTableMetatable (hs : s.Reached) (r : Ref) (metatable : Option Ref)
    (h : (s.heap.table? r).isSome ∧ (s.table r).array.size ≤ 2 ^ 31 ∧
      (setTableMetatable r metatable s).1.isOk) :
    State.Reached (setTableMetatable r metatable s).2 := by
  obtain ⟨hsome, hsize, hdone⟩ := h
  obtain ⟨t, ht⟩ := Option.isSome_iff_exists.mp hsome
  cases hset : setTableMetatable r metatable s with
  | mk result s' =>
    rw [hset] at hdone
    cases result with
    | error e => cases hdone
    | ok _ => exact reached_setTableMetatable hs ht (State.table_eq ht ▸ hsize) hset

end Act

end LuaData
