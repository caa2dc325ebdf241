import LuaData.Proofs.Chains
import LuaData.Proofs.Instance
import LuaData.State.Call

/-!
# What a call comes to

A call of a value that is no function goes to its `__call` handler, with the value as the first
argument, and so on along the chain. `Act.call_resolves` says which function is run and with which
arguments, and that none is run when the call fails. `RunsOnce` and `Refuses` say so for all that
the host's functions may do.
-/

namespace LuaData

variable {σ : Type} {s : State σ} {handler x y : Value} {args : List Value} {r : Ref} {n : Nat}

namespace State

/-- The function is a native one. -/
def IsNative (s : State σ) (r : Ref) : Prop :=
  ∃ f procedure, s.heap.function? r = some f ∧ f.body = .native procedure

/-- The function is a prototype with the given name. -/
def IsPrototype (s : State σ) (r : Ref) (name : String) : Prop :=
  ∃ f payload, s.heap.function? r = some f ∧ f.body = .prototype payload ∧ f.name = name

/-- A function is a native one or a prototype. -/
theorem native_or_prototype (hr : (s.heap.function? r).isSome = true) :
    s.IsNative r ∨ ∃ name, s.IsPrototype r name := by
  obtain ⟨f, hf⟩ := Option.isSome_iff_exists.mp hr
  cases hbody : f.body with
  | native procedure => exact .inl ⟨f, procedure, hf, hbody⟩
  | prototype payload => exact .inr ⟨f.name, f, payload, hf, hbody, rfl⟩

end State

section

variable [Hashing]

/-! ## The chain of a call -/

namespace State

/-- The `__call` handler of a value that is no function. -/
def callNext? (s : State σ) (x : Value) : Option Value :=
  if x.isFunction then none else s.metamethod? x .call

/-- The value that is some links along the chain of a call. -/
def callLink? (s : State σ) (handler : Value) : Nat → Option Value :=
  Chain.link? s.callNext? handler

/-- The arguments at a link: the values before it, the nearest one first, and then the arguments of
the call. -/
def callArgs (s : State σ) (handler : Value) (args : List Value) (n : Nat) : List Value :=
  (List.range n).reverse.filterMap (s.callLink? handler) ++ args

/-- The arguments at the next link. -/
theorem callArgs_succ (hlink : s.callLink? handler n = some x) :
    s.callArgs handler args (n + 1) = x :: s.callArgs handler args n := by
  rw [callArgs, List.range_succ, List.reverse_append, List.reverse_singleton, List.singleton_append,
    List.filterMap_cons_some hlink]
  rfl

/-- A call goes on from a value that is no function to its handler. -/
theorem callNext?_eq_some_iff :
    s.callNext? x = some y ↔ x.isFunction = false ∧ s.metamethod? x .call = some y := by
  rw [callNext?]
  cases x.isFunction <;> simp

/-- The search asks a value that is no function for its handler. -/
theorem callTarget_succ (hx : x.isFunction = false) (limit : Nat) :
    s.callTarget (limit + 1) x args =
      match s.metamethod? x .call with
      | some next => s.callTarget limit next (x :: args)
      | none => .notCallable x.kind := by
  cases x with
  | function r => cases hx
  | _ => rfl

/-- The search from a link, with the arguments there, is what is left of the search from the
start. -/
theorem callTarget_of_link (hlink : s.callLink? handler n = some x) (limit : Nat) :
    s.callTarget (n + limit) handler args = s.callTarget limit x (s.callArgs handler args n) := by
  induction n generalizing x limit with
  | zero =>
    cases hlink
    rw [Nat.zero_add]
    rfl
  | succ n ih =>
    obtain ⟨w, hw, hnext⟩ := Chain.exists_link?_of_succ hlink
    obtain ⟨hfunction, hhandler⟩ := callNext?_eq_some_iff.mp hnext
    rw [Nat.add_assoc, Nat.add_comm 1, ih hw, callTarget_succ hfunction, hhandler, callArgs_succ hw]

/-- The search does at the limit what it does at a link below it. -/
theorem callTarget_eq (hlink : s.callLink? handler n = some x) {limit : Nat} (hn : n < limit) :
    ∃ rest, s.callTarget limit handler args =
      s.callTarget (rest + 1) x (s.callArgs handler args n) := by
  obtain ⟨rest, rfl⟩ := Nat.exists_eq_add_of_lt hn
  exact ⟨rest, by rw [Nat.add_assoc, callTarget_of_link hlink]⟩

/-- The search ends at a native function. -/
theorem IsNative.callTarget_eq (hr : s.IsNative r) (limit : Nat) :
    s.callTarget (limit + 1) (.function r) args = .native r args := by
  obtain ⟨⟨name, body, captured⟩, procedure, hf, hbody⟩ := hr
  cases hbody
  rw [callTarget, hf]

/-- The search ends at a prototype. -/
theorem IsPrototype.callTarget_eq {name : String} (hr : s.IsPrototype r name) (limit : Nat) :
    s.callTarget (limit + 1) (.function r) args = .prototype name := by
  obtain ⟨⟨name, body, captured⟩, payload, hf, hbody, rfl⟩ := hr
  cases hbody
  rw [callTarget, hf]

end State

/-! ## Calling a value -/

namespace Act

/-- A call does what the search finds. -/
theorem call_apply (run : Ref → List Value → Act σ Results) (handler : Value) (args : List Value)
    (s : State σ) :
    call run handler args s =
      match s.callTarget s.options.maxChain handler args with
      | .native r args => run r args s
      | .prototype name => (.error (.noInterpreter name), s)
      | .notCallable kind => (.error (.called kind), s)
      | .endless => (.error (.endlessChain .call), s) := by
  unfold call
  rw [bind_apply, get_apply]
  dsimp only
  cases s.callTarget s.options.maxChain handler args <;> rfl

/-- The call fails with the error, and no function is run: it has this answer and leaves the state
as it is, whatever the functions do. -/
def Refuses (s : State σ) (handler : Value) (args : List Value) (e : Error) : Prop :=
  ∀ run, call run handler args s = (.error e, s)

/-- The call is one run of the function with the given arguments: it has the answer of that run and
leaves the state that it leaves, whatever the functions do. -/
def RunsOnce (s : State σ) (handler : Value) (args : List Value) (r : Ref) (given : List Value) :
    Prop :=
  ∀ run, call run handler args s = run r given s

/-- A call that runs a function does not fail by itself. -/
theorem Refuses.not_runsOnce {e : Error} {given : List Value} (h : Refuses s handler args e) :
    ¬ RunsOnce s handler args r given := by
  intro hruns
  -- The function may be one that returns nothing.
  cases (h fun _ _ ↦ pure .empty).symm.trans (hruns _)

/-- A call fails with one error. -/
theorem Refuses.unique {e e' : Error} (h : Refuses s handler args e)
    (h' : Refuses s handler args e') : e = e' :=
  Except.error.inj (Prod.mk.inj ((h fun _ _ ↦ pure .empty).symm.trans (h' _))).1

section

variable (hn : n < s.options.maxChain)

include hn

/-- At a native function a call is a run of it. -/
theorem runsOnce_of_native (hlink : s.callLink? handler n = some (.function r))
    (hr : s.IsNative r) : RunsOnce s handler args r (s.callArgs handler args n) := by
  intro run
  obtain ⟨rest, hrest⟩ := State.callTarget_eq hlink hn
  rw [call_apply, hrest, hr.callTarget_eq]

/-- At a prototype a call fails. -/
theorem refuses_of_prototype {name : String} (hlink : s.callLink? handler n = some (.function r))
    (hr : s.IsPrototype r name) : Refuses s handler args (.noInterpreter name) := by
  intro run
  obtain ⟨rest, hrest⟩ := State.callTarget_eq hlink hn
  rw [call_apply, hrest, hr.callTarget_eq]

/-- At another value without a handler a call fails. -/
theorem refuses_of_notCallable (hlink : s.callLink? handler n = some x)
    (hx : x.isFunction = false) (hhandler : s.metamethod? x .call = none) :
    Refuses s handler args (.called x.kind) := by
  intro run
  obtain ⟨rest, hrest⟩ := State.callTarget_eq hlink hn
  rw [call_apply, hrest, State.callTarget_succ hx, hhandler]

/-- A call whose chain stops at a link below the limit is a run of a native function there, or it
fails otherwise than by its length. -/
theorem call_of_stop (hlink : s.callLink? handler n = some x) (hstop : s.callNext? x = none) :
    (∃ r, x = .function r ∧ s.IsNative r) ∨
      ∃ e, e ≠ .endlessChain .call ∧ Refuses s handler args e := by
  cases hx : x.isFunction with
  | false =>
    refine .inr ⟨.called x.kind, nofun, refuses_of_notCallable hn hlink hx ?_⟩
    rwa [State.callNext?, hx, if_neg Bool.false_ne_true] at hstop
  | true =>
    obtain ⟨r, rfl⟩ : ∃ r, x = .function r := by
      cases x with
      | function r => exact ⟨r, rfl⟩
      | _ => cases hx
    cases hr : s.heap.function? r with
    | some f =>
      rcases State.native_or_prototype (Option.isSome_of_eq_some hr) with hr | ⟨name, hr⟩
      · exact .inl ⟨r, rfl, hr⟩
      · exact .inr ⟨.noInterpreter name, nofun, refuses_of_prototype hn hlink hr⟩
    | none =>
      refine .inr ⟨.called .function, nofun, fun run ↦ ?_⟩
      obtain ⟨rest, hrest⟩ := State.callTarget_eq hlink hn
      rw [call_apply, hrest, State.callTarget, hr]

end

/-- A chain that goes on to the limit is given up. -/
theorem refuses_of_endless (hlink : s.callLink? handler s.options.maxChain = some x) :
    Refuses s handler args (.endlessChain .call) := by
  have hend : s.callTarget (s.options.maxChain + 0) handler args = .endless :=
    State.callTarget_of_link hlink 0
  intro run
  rw [call_apply, show s.callTarget s.options.maxChain handler args = .endless from hend]

/-- A call comes to a native function at a link below the limit, fails otherwise than by its length,
or has a chain that goes on to the limit. -/
theorem call_cases (s : State σ) (handler : Value) (args : List Value) :
    (∃ n < s.options.maxChain, ∃ r, s.callLink? handler n = some (.function r) ∧ s.IsNative r) ∨
      (∃ e, e ≠ .endlessChain .call ∧ Refuses s handler args e) ∨
      ∃ x, s.callLink? handler s.options.maxChain = some x := by
  rcases Chain.exists_stop_or_link s.callNext? handler s.options.maxChain with
    ⟨n, hn, x, hlink, hstop⟩ | hlink
  · rcases call_of_stop hn hlink hstop with ⟨r, rfl, hr⟩ | hrefuses
    · exact .inl ⟨n, hn, r, hlink, hr⟩
    · exact .inr (.inl hrefuses)
  · exact .inr (.inr hlink)

/-- What a call comes to, by the link where its chain stops. -/
structure CallResolves (s : State σ) (handler : Value) (args : List Value) : Prop where
  /-- A native function is run exactly if there is one at a link below the limit. -/
  runs_iff : (∃ r given, RunsOnce s handler args r given) ↔
    ∃ n < s.options.maxChain, ∃ r, s.callLink? handler n = some (.function r) ∧ s.IsNative r
  /-- It is run once. Its arguments are the values before it, the nearest one first, and then those
  of the call. -/
  native : ∀ n r, n < s.options.maxChain → s.callLink? handler n = some (.function r) →
    s.IsNative r → RunsOnce s handler args r
      ((List.range n).reverse.filterMap (s.callLink? handler) ++ args)
  /-- A prototype is an error that names it, and nothing is run. -/
  prototype : ∀ n r name, n < s.options.maxChain →
    s.callLink? handler n = some (.function r) → s.IsPrototype r name →
      ∃ e, Refuses s handler args e ∧ e.kind = .runtime ∧
        e.message = s!"cannot call '{name}': no interpreter installed"
  /-- Another value without a handler is a type error that names its type, and nothing is run. -/
  notCallable : ∀ n x, n < s.options.maxChain → s.callLink? handler n = some x →
    x.isFunction = false → s.metamethod? x .call = none →
      ∃ e, Refuses s handler args e ∧ e.kind = .type ∧
        e.message = s!"attempt to call a {x.typeName} value"
  /-- The chain is too long exactly if the values at all links below the limit are no functions and
  have handlers. Then nothing is run. -/
  endless : Refuses s handler args (.endlessChain .call) ↔
    ∀ n < s.options.maxChain, ∃ x next, s.callLink? handler n = some x ∧
      x.isFunction = false ∧ s.metamethod? x .call = some next
  /-- A call is one run of a function or fails without any. -/
  ends : (∃ r given, RunsOnce s handler args r given) ∨ ∃ e, Refuses s handler args e

/-- A call comes to what is at the link where the chain of handlers stops. -/
theorem call_resolves (s : State σ) (handler : Value) (args : List Value) :
    CallResolves s handler args where
  runs_iff := by
    constructor
    · rintro ⟨r, given, hruns⟩
      rcases call_cases s handler args with hnative | ⟨e, -, he⟩ | ⟨x, hlink⟩
      · exact hnative
      · exact absurd hruns he.not_runsOnce
      · exact absurd hruns (refuses_of_endless hlink).not_runsOnce
    · rintro ⟨n, hn, r, hlink, hr⟩
      exact ⟨r, _, runsOnce_of_native hn hlink hr⟩
  native n r hn hlink hr := runsOnce_of_native hn hlink hr
  prototype n r name hn hlink hr := ⟨_, refuses_of_prototype hn hlink hr, rfl, rfl⟩
  notCallable n x hn hlink hx hhandler := ⟨_, refuses_of_notCallable hn hlink hx hhandler, rfl, rfl⟩
  endless := by
    constructor
    · intro hendless n hn
      rcases call_cases s handler args with ⟨m, hm, r, hlink, hr⟩ | ⟨e, hne, he⟩ | hlink
      · exact absurd (runsOnce_of_native hm hlink hr) hendless.not_runsOnce
      · exact absurd (he.unique hendless) hne
      · obtain ⟨x, y, hx, hnext⟩ := (Chain.exists_link?_iff _ _ _).mp hlink n hn
        exact ⟨x, y, hx, State.callNext?_eq_some_iff.mp hnext⟩
    · intro hnext
      have hlink : ∃ x, s.callLink? handler s.options.maxChain = some x := by
        refine (Chain.exists_link?_iff _ _ _).mpr fun n hn ↦ ?_
        obtain ⟨x, y, hx, hgoes⟩ := hnext n hn
        exact ⟨x, y, hx, State.callNext?_eq_some_iff.mpr hgoes⟩
      obtain ⟨x, hlink⟩ := hlink
      exact refuses_of_endless hlink
  ends := by
    rcases call_cases s handler args with ⟨n, hn, r, hlink, hr⟩ | ⟨e, -, he⟩ | ⟨x, hlink⟩
    · exact .inl ⟨r, _, runsOnce_of_native hn hlink hr⟩
    · exact .inr ⟨e, he⟩
    · exact .inr ⟨_, refuses_of_endless hlink⟩

end Act

end

namespace Act

/-- An instance where numbers have the metatable 0, whose calls go to the table 1; that has the
metatable 2, whose calls go to the native function 4. -/
def delegating : State Unit :=
  let s := { State.initial Options.default () with
    heap := [.table (.withHashSize 0), .table (.withHashSize 0), .table (.withHashSize 0), .text,
      .function ⟨"f", .native 0, []⟩].foldl Heap.allocate .empty
    held := [.table 0, .table 1, .table 2, .function 4] }
  let s := (rawSet (.table 0) (.str ⟨Utf8.ofString "__call", 3⟩) (.table 1) s).2
  let s := (rawSet (.table 2) (.str ⟨Utf8.ofString "__call", 3⟩) (.function 4) s).2
  let s := (setTableMetatable 1 (some 2) s).2
  { s with shared := s.shared.set .integer (some 0) }

/-- A call of a number runs the function with the table 1, the number and the argument. -/
theorem call_resolves_of_delegating :
    RunsOnce delegating (.int 7) [.bool true] 4 [.table 1, .int 7, .bool true] := by
  have hlink : delegating.callLink? (.int 7) 2 = some (.function 4) := by decide +kernel
  have hgiven : (List.range 2).reverse.filterMap (delegating.callLink? (.int 7)) ++ [.bool true] =
      [.table 1, .int 7, .bool true] := by decide +kernel
  have hnative : delegating.IsNative 4 := by
    have hbody : (delegating.heap.function? 4).any (fun f ↦ f.body matches .native _) = true := by
      decide +kernel
    cases hf : delegating.heap.function? 4 with
    | none =>
      rw [hf] at hbody
      cases hbody
    | some f =>
      rw [hf] at hbody
      cases hprocedure : f.body with
      | native procedure => exact ⟨f, procedure, hf, hprocedure⟩
      | prototype payload => simp [hprocedure] at hbody
  have hruns := (call_resolves delegating (.int 7) [.bool true]).native 2 4 (by decide +kernel)
    hlink hnative
  rwa [hgiven] at hruns

end Act

end LuaData
