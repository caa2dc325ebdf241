import Mathlib.Order.Basic
import LuaData.Proofs.Keys
import LuaData.Proofs.Slots

/-!
# Moments

A moment says which cells are alive and which names have been given so far. Between two moments
cells are released and new ones are made, but a name is never given twice: a cell that was named at
the earlier moment and is alive at the later one was alive all the time. So a handle that has lost
its cell stays empty (`Handle.get_of_le`), which is all that tables rely on.
-/

namespace LuaData

/-- The cells that are alive, and the first name that has not been given. -/
structure Moment where
  alive : Ref → Bool
  fresh : Ref
  lt_fresh : ∀ r, alive r = true → r < fresh

namespace Moment

/-- What tables see at a moment. -/
def context (m : Moment) (hash : Value → UInt64) : Context :=
  ⟨hash, m.alive⟩

@[simp]
theorem context_hash (m : Moment) (hash : Value → UInt64) : (m.context hash).hash = hash := rfl

@[simp]
theorem context_alive (m : Moment) (hash : Value → UInt64) : (m.context hash).alive = m.alive := rfl

/-- The moment before any cell is made. -/
def origin : Moment := ⟨fun _ ↦ false, 0, nofun⟩

/-- The moment at which this many cells have been made and none has been released. -/
def allAlive (count : Nat) : Moment :=
  ⟨fun r ↦ r < count, count, fun _ h ↦ of_decide_eq_true h⟩

/-- Later moments: more names may be given, and none of the earlier names comes back. -/
instance : Preorder Moment where
  le m n := m.fresh ≤ n.fresh ∧ ∀ r < m.fresh, n.alive r = true → m.alive r = true
  le_refl m := ⟨Nat.le_refl _, fun _ _ h ↦ h⟩
  le_trans m n o hmn hno :=
    ⟨hmn.1.trans hno.1, fun r hr h ↦ hmn.2 r hr (hno.2 r (hr.trans_le hmn.1) h)⟩

/-- No name comes back. -/
theorem alive_of_le {m n : Moment} (h : m ≤ n) {r : Ref} (hr : r < m.fresh)
    (halive : n.alive r = true) : m.alive r = true :=
  h.2 r hr halive

/-- Names stay given. -/
theorem fresh_le {m n : Moment} (h : m ≤ n) : m.fresh ≤ n.fresh :=
  h.1

/-- Every moment at which as many names have been given is later. -/
theorem allAlive_le {m : Moment} {count : Nat} (h : count ≤ m.fresh) : allAlive count ≤ m :=
  ⟨h, fun _ hr _ ↦ decide_eq_true hr⟩

end Moment

/-- The cell that the value refers to has been named. -/
def Value.Named (fresh : Ref) (v : Value) : Prop :=
  ∀ r, v.ref? = some r → r < fresh

/-- Names stay given. -/
theorem Value.Named.mono {fresh fresh' : Ref} {v : Value} (h : v.Named fresh)
    (hle : fresh ≤ fresh') : v.Named fresh' :=
  fun r hr ↦ (h r hr).trans_le hle

/-- A value without a cell needs no name. -/
theorem Value.named_of_inline {v : Value} (h : v.ref? = none) (fresh : Ref) : v.Named fresh :=
  fun r hr ↦ by cases h.symm.trans hr

/-- A value has been named if its cell has. -/
theorem Value.named_of_ref? {v : Value} {r fresh : Ref} (href : v.ref? = some r) (h : r < fresh) :
    v.Named fresh := by
  intro r' href'
  cases href.symm.trans href'
  exact h

/-- A value whose cell is alive has been named. -/
theorem Value.named_of_present {m : Moment} {v : Value} (h : v.present m.alive = true) :
    v.Named m.fresh := by
  intro r hr
  rw [present, hr] at h
  exact m.lt_fresh r (by simpa using h)

/-- A value that is still there was there before. -/
theorem Value.present_of_le {m n : Moment} (hle : m ≤ n) {v : Value} (hnamed : v.Named m.fresh)
    (h : v.present n.alive = true) : v.present m.alive = true := by
  unfold present at h ⊢
  cases href : v.ref? with
  | none => rfl
  | some r =>
    rw [href] at h
    simpa using Moment.alive_of_le hle (hnamed r href) (by simpa using h)

namespace Handle

variable {alive : Ref → Bool}

@[simp]
theorem target_ofValue (v : Value) (weakly : Bool) : (ofValue v weakly).target = v := by
  unfold ofValue
  split <;> rfl

@[simp]
theorem target_ofEntry (v : Value) (weakly : Bool) : (ofEntry v weakly).target = v :=
  target_ofValue _ _

/-- A handle gives back the value that it was made for. -/
theorem target_of_get {h : Handle} {v : Value} (hget : h.get alive = some v) : h.target = v := by
  cases h with
  | strong w => simpa [get, target] using hget
  | weak w =>
    simp only [get] at hget
    split at hget
    · simpa [target] using hget
    · cases hget

/-- A handle on a value whose cell is alive gives it back. -/
theorem get_of_present {h : Handle} (hpresent : h.target.present alive = true) :
    h.get alive = some h.target := by
  cases h with
  | strong v => rfl
  | weak v => simp_all [get, target]

/-- A handle that was made to be strong gives its value back at all times. -/
theorem get_ofValue_false (v : Value) : (ofValue v false).get alive = some v := rfl

/-- An inline value is held strongly. -/
theorem get_ofValue_inline {v : Value} (hv : v.ref? = none) (weakly : Bool) :
    (ofValue v weakly).get alive = some v := by
  simp [ofValue, hv, get]

/-- An inline value is held strongly by an entry. -/
theorem get_ofEntry_inline {v : Value} (hv : v.ref? = none) (weakly : Bool) :
    (ofEntry v weakly).get alive = some v :=
  get_ofValue_inline hv _

/-- A handle that has lost its cell does not get it back. -/
theorem get_of_le {m n : Moment} (hle : m ≤ n) {h : Handle} (hnamed : h.target.Named m.fresh)
    {v : Value} (hget : h.get n.alive = some v) : h.get m.alive = some v := by
  cases h with
  | strong w => exact hget
  | weak w =>
    have htarget := target_of_get hget
    simp only [target] at htarget hnamed
    subst htarget
    have hpresent : w.present n.alive = true := by
      by_contra habsent
      simp [get, habsent] at hget
    simp [get, Value.present_of_le hle hnamed hpresent]

end Handle

end LuaData
