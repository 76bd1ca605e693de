import Stepwise.Proofs.Locality.Steps

/-! # The discipline of scopes

Every visit leaves the scopes in the order in which it found them. What was bound stays
bound to the same cell, only declarations add names, and these go into the innermost
scope. Names of functions are the exception: they enter the global scope from anywhere.
-/

namespace Stepwise

open RunM

namespace Scope

variable {α : Type}

/-- Scopes of which the first and the last one gained names, one of them at a time. -/
theorem getElem?_extendFirst (xs ys : List (String × α)) (inner : List (Scope α))
    (global : Scope α) (i : Nat) :
    ∃ more, (extendFirst xs inner ++ [global.extend ys])[i]? =
      (inner ++ [global])[i]?.map fun scope => scope.extend more := by
  have hlast (rest : List (Scope α)) (i : Nat) :
      ∃ more, (rest ++ [global.extend ys])[i]? =
        (rest ++ [global])[i]?.map fun scope => scope.extend more := by
    induction rest generalizing i with
    | nil => cases i with
      | zero => exact ⟨ys, rfl⟩
      | succ i => exact ⟨[], rfl⟩
    | cons scope rest ih => cases i with
      | zero => exact ⟨[], by simp⟩
      | succ i => exact ih i
  cases inner with
  | nil => exact hlast [] i
  | cons first rest => cases i with
    | zero => exact ⟨xs, rfl⟩
    | succ i => exact hlast rest i

end Scope

namespace Scopes

variable {α : Type}

/-- What a name is bound to in the scope with a number, counted from the innermost one; the
global scope comes last. -/
def binding? (s : Scopes α) (i : Nat) (name : String) : Option α :=
  (s.inner ++ [s.global])[i]?.bind fun scope => scope.get? name

theorem lookup_of_global {s t : Scopes α} {name : String} {a : α} (hi : t.inner = s.inner)
    (hg : ∀ a, s.global.get? name = some a → t.global.get? name = some a)
    (h : s.lookup name = some a) : t.lookup name = some a := by
  unfold lookup visible at h ⊢
  rw [List.findSome?_append] at h ⊢
  rw [hi]
  rcases Option.or_eq_some_iff.mp h with h | ⟨hn, h⟩
  · rw [h, Option.some_or]
  · rw [hn, Option.none_or]
    simp only [List.findSome?_singleton] at h ⊢
    exact hg a h

end Scopes

namespace State

variable {s t : State}

/-- No scope was lost or changed, apart from the names of functions in the global one, and
every name that was bound in view stands for the same cell. -/
structure Preserves (s t : State) : Prop where
  inner : t.scopes.inner = s.scopes.inner
  functions : s.GainsFunctions t
  lookup : ∀ name p, s.scopes.lookup name = some p → t.lookup name = some p

theorem GainsFunctions.get? (h : s.GainsFunctions t) {name : String} {p : Place}
    (hp : s.scopes.global.get? name = some p) : t.scopes.global.get? name = some p := by
  obtain ⟨more, hm, -⟩ := h.global
  rw [hm]
  exact Scope.get?_extend hp more

theorem Keeps.preserves (h : s.Keeps t) : s.Preserves t where
  inner := h.inner_eq
  functions := h.functions
  lookup name p hp := by
    unfold lookup
    rw [Scopes.lookup_of_global h.inner_eq (fun _ => h.functions.get?) hp]
    rfl

theorem Gains.depth (h : s.Gains t) : t.scopes.depth = s.scopes.depth := by
  obtain ⟨more, hm⟩ := h.inner
  rw [Scopes.depth, Scopes.depth, hm, Scope.length_extendFirst]

/-- A binding stays as it is, in whatever scope it was made. -/
theorem Gains.binding? (h : s.Gains t) {i : Nat} {name : String} {p : Place}
    (hp : s.scopes.binding? i name = some p) : t.scopes.binding? i name = some p := by
  obtain ⟨xs, hx⟩ := h.inner
  obtain ⟨ys, hy, -⟩ := h.global
  obtain ⟨more, hm⟩ := Scope.getElem?_extendFirst xs ys s.scopes.inner s.scopes.global i
  obtain ⟨scope, hs, hp⟩ := Option.bind_eq_some_iff.mp hp
  rw [Scopes.binding?, hx, hy, hm, hs]
  exact Scope.get?_extend hp more

end State

variable {s t : State} {b : Footing} {k : Completion}

theorem RunM.Completes.allows {c : Config} {x : RunM (Progress k)} {r : k.Result}
    (h : x.Completes c s r t) (hx : Surroundings.Follows {} b s x) : b.Allows t := by
  obtain ⟨fs, h⟩ := h
  have hd := Surroundings.follows_driven hx fs c
  rw [h] at hd
  exact hd.1

/-- Whatever is visited or called, and however the host drives it to its end: an expression, a
call and a statement that is no declaration leave all scopes as they are, and a declaration only
adds names to the innermost one. -/
theorem scope_discipline (c : Config) (s t : State) :
    (∀ e hint v, (visit e hint .nil).Completes c s v t → s.Preserves t) ∧
    (∀ target args v, (invoke target args).Completes c s v t → s.Preserves t) ∧
    (∀ st inSwitch flow, (visitStmt st inSwitch .nil).Completes c s flow t →
      s.Gains t ∧ t.scopes.depth = s.scopes.depth ∧
      (∀ i name p, s.scopes.binding? i name = some p → t.scopes.binding? i name = some p) ∧
      (st.isDeclaration = false → s.Preserves t)) := by
  have ha : Surroundings.Admits {} s := .of_outer rfl
  refine ⟨fun e hint v h => ?_, fun target args v h => ?_, fun st inSwitch flow h => ?_⟩
  · have hx := Surroundings.follows_visit (b := ⟨s, false⟩) e hint ha rfl (.nil (.refl _))
    exact State.Keeps.preserves (h.allows hx)
  · have hx := Surroundings.follows_invoke (E := {}) (Footing.allows_start ⟨s, false⟩) target
      args
    exact State.Keeps.preserves (h.allows hx)
  · have hx := Surroundings.follows_visitStmt (b := ⟨s, st.isDeclaration⟩) st inSwitch ha rfl
      (.nil (.refl _))
    have hb := h.allows hx
    refine ⟨hb.toGains, hb.toGains.depth, fun i name p => hb.toGains.binding?, fun hd => ?_⟩
    rw [hd] at hb
    exact State.Keeps.preserves hb

/-- `{ int one = 1; }` -/
def blockOfOne : Stmt :=
  .compound default [.declaration default ⟨⟨[], ["int"], default⟩,
    [⟨.mk default [] false (.named "one") [],
      some (.expr (.literal default (.int 1 10 false false)))⟩]⟩]

/-- There is one function, and its body is the block. -/
def stateOfOne : State where
  functions := #[⟨"f", .global, ⟨.void, [], false⟩, [], .defined blockOfOne⟩]

def targetOfOne : CallTarget := ⟨⟨"f", .global, none⟩, ⟨0, ⟨.void, [], false⟩, []⟩⟩

/-- The call of that function. -/
def callOfOne : RunM (Progress .value) := invoke targetOfOne []

theorem scope_discipline_of_one :
    (∃ v t, (visit (.literal default (.bool true)) none .nil).Completes {} stateOfOne v t ∧
      stateOfOne.Preserves t) ∧
    (∃ v t, callOfOne.Completes {} stateOfOne v t ∧ stateOfOne.Preserves t) ∧
    (∃ flow t, (visitStmt blockOfOne false .nil).Completes {} stateOfOne flow t ∧
      stateOfOne.Preserves t) := by
  refine ⟨?_, ?_, ?_⟩
  · obtain ⟨v, t, h⟩ := completes_of_ends (visit (.literal default (.bool true)) none .nil) [id]
      {} stateOfOne (by decide +kernel)
    exact ⟨v, t, h, (scope_discipline {} stateOfOne t).1 _ _ _ h⟩
  · obtain ⟨v, t, h⟩ := completes_of_ends callOfOne [id, id, id] {} stateOfOne
      (by decide +kernel)
    exact ⟨v, t, h, (scope_discipline {} stateOfOne t).2.1 _ _ _ h⟩
  · obtain ⟨flow, t, h⟩ := completes_of_ends (visitStmt blockOfOne false .nil) [id, id, id]
      {} stateOfOne (by decide +kernel)
    exact ⟨flow, t, h, ((scope_discipline {} stateOfOne t).2.2 _ _ _ h).2.2.2 rfl⟩

end Stepwise

/-! ## Callees and their callers

A call does the same for all callers, whatever scopes they have above the global one. Its
own scopes lie above those of the caller, which come back at the end. In between, names are
looked up in the scopes of the innermost frame, in the global scope and in the namespaces
in use.
-/

namespace Stepwise

open RunM

variable {j k : Completion}

namespace State

/-- The state with other scopes above the global one. -/
def withInner (s : State) (inner : List (Scope Place)) : State :=
  { s with scopes := { s.scopes with inner } }

/-- The state with the scopes of a caller below those above the global one. -/
def onCaller (s : State) (caller : List (Scope Place)) : State :=
  s.withInner (s.scopes.inner ++ caller)

theorem inner_onCaller (s : State) (caller : List (Scope Place)) :
    (s.onCaller caller).scopes.inner = s.scopes.inner ++ caller := rfl

/-- What names stand for is found in the scopes, in the global one or in a namespace in use. -/
def ResolvesIn (scopes : List (Scope Place)) (s : State) : Prop :=
  ∀ name p, s.lookup name = some p → (∃ scope ∈ scopes, scope.get? name = some p) ∨
    s.scopes.global.get? name = some p ∨ s.namespaces.lookupImported name = some p

theorem resolvesIn_frameScopes (s : State) :
    s.ResolvesIn (Scopes.frameScopes s.scopes.inner) := by
  intro name p h
  rw [lookup, Option.orElse_eq_orElse, Option.orElse_eq_or] at h
  rcases Option.or_eq_some_iff.mp h with h | ⟨-, h⟩
  · obtain ⟨scope, hm, hp⟩ := List.exists_of_findSome?_eq_some h
    rcases List.mem_append.mp hm with hm | hm
    · exact .inl ⟨scope, hm, hp⟩
    · exact .inr (.inl (List.mem_singleton.mp hm ▸ hp))
  · exact .inr (.inr h)

end State

/-- What is seen of a part of a run from outside: how it ended, or the pause it has come to. -/
inductive Sight (k : Completion)
  | done (r : k.Result)
  | fault (f : Fault)
  | paused {j : Completion} (p : Pause j)

namespace RunM

/-- What a part of a run comes to, and the state but for the scopes above the global one. -/
def sight (x : RunM (Progress k)) (c : Config) (s : State) : Sight k × State :=
  match x c s with
  | .ok (.done r) t => (.done r, t.withInner [])
  | .ok (.paused p _) t => (.paused p, t.withInner [])
  | .error f t => (.fault f, t.withInner [])

/-- The result of a part of a run on top of the scopes of a caller. -/
def resultOn (caller : List (Scope Place)) :
    EStateM.Result Fault State (Progress k) → EStateM.Result Fault State (Progress k)
  | .ok p t => .ok (p.under caller.length) (t.onCaller caller)
  | .error f t => .error f (t.onCaller caller)

/-- The part of a run, however it is driven, does the same for all callers. -/
structure IgnoresCaller (x : RunM (Progress k)) (c : Config) (s : State) : Prop where
  /-- On the scopes of a caller it does what it does without a caller, where names are found in its
  own scopes, in the global one and in namespaces only. -/
  onCaller : ∀ fs caller, (x >>= drive fs) c (s.withInner caller) =
    resultOn caller ((x >>= drive fs) c (s.withInner []))
  sight : ∀ fs caller caller', (x >>= drive fs).sight c (s.withInner caller) =
    (x >>= drive fs).sight c (s.withInner caller')
  /-- While it is suspended, it has scopes with a frame of its own and looks up names there. Only
  a library function that waits for input has none, and looks up no names. -/
  resolves : ∀ fs caller {j : Completion} (p : Pause j) path t,
    (x >>= drive fs) c (s.withInner caller) = .ok (.paused p path) t →
      ∃ own, t.scopes.inner = own ++ caller ∧ (own = [] → p.looksUp = false) ∧
        (own ≠ [] → (∃ scope ∈ own, scope.frame = true) ∧
          t.ResolvesIn (Scopes.frameScopes own))
  returns : ∀ fs caller r t, (x >>= drive fs) c (s.withInner caller) = .ok (.done r) t →
    t.scopes.inner = caller

theorem resultOn_eq_ok {caller : List (Scope Place)} {q : Progress k} {u : State}
    {y : EStateM.Result Fault State (Progress k)} (h : resultOn caller y = .ok q u) :
    ∃ p t, y = .ok p t ∧ p.under caller.length = q ∧ t.onCaller caller = u := by
  cases y with
  | ok p t => cases h; exact ⟨p, t, rfl, rfl, rfl⟩
  | error f t => cases h

section Follows

variable {x : RunM (Progress k)} {s : State}
  (hx : ∀ E : Surroundings, E.Follows ⟨s.withInner [], false⟩ (s.withInner []) x)
  (c : Config) (fs : List (Console → Console)) (caller : List (Scope Place))

include hx

/-- The scopes of a caller are among the surroundings in which the computation does the same. -/
theorem drive_onCaller : (x >>= drive fs) c (s.withInner caller) =
    resultOn caller ((x >>= drive fs) c (s.withInner [])) := by
  have hd := Surroundings.follows_driven (hx ⟨caller, false⟩) fs c
  cases h : (x >>= drive fs) c (s.withInner []) with
  | ok p t => rw [h] at hd; exact hd.2
  | error f t =>
    rw [h] at hd
    exact hd.resolve_left fun hf => Bool.false_ne_true hf.1

theorem sight_onCaller : (x >>= drive fs).sight c (s.withInner caller) =
    (x >>= drive fs).sight c (s.withInner []) := by
  unfold sight
  rw [drive_onCaller hx c fs caller]
  cases (x >>= drive fs) c (s.withInner []) with
  | ok p t => cases p <;> rfl
  | error f t => rfl

/-- A suspended call has a frame of its own, unless it has no scopes at all. -/
theorem frame_of_paused {p : Pause j} {path : Frames j k} {t : State}
    (h : (x >>= drive fs) c (s.withInner []) = .ok (.paused p path) t) :
    (∃ scope ∈ t.scopes.inner, scope.frame = true) ∨
      p.looksUp = false ∧ t.scopes.inner = [] := by
  -- Where a caller has scopes, they are out of view only behind a frame.
  have hd := Surroundings.follows_driven (hx ⟨[⟨"", false, []⟩], false⟩) fs c
  rw [h] at hd
  rcases hd.1.admits with (hn | hf) | ⟨hp, ha⟩
  · cases hn
  · exact .inl hf
  · exact .inr ⟨hp, State.Keeps.inner_eq ha⟩

theorem resolves_of_paused {p : Pause j} {path : Frames j k} {u : State}
    (hu : (x >>= drive fs) c (s.withInner caller) = .ok (.paused p path) u) :
    ∃ own, u.scopes.inner = own ++ caller ∧ (own = [] → p.looksUp = false) ∧
      (own ≠ [] → (∃ scope ∈ own, scope.frame = true) ∧
        u.ResolvesIn (Scopes.frameScopes own)) := by
  rw [drive_onCaller hx c fs caller] at hu
  obtain ⟨q, t, h, hq, rfl⟩ := resultOn_eq_ok hu
  cases q with
  | done r => cases hq
  | paused q path =>
    cases hq
    have hframe := frame_of_paused hx c fs h
    refine ⟨t.scopes.inner, rfl, fun hn => ?_, fun hn => ?_⟩
    · rcases hframe with ⟨scope, hm, -⟩ | ⟨hp, -⟩
      · rw [hn] at hm
        exact absurd hm List.not_mem_nil
      · exact hp
    · have hf := hframe.resolve_right fun h => hn h.2
      have hr := (t.onCaller caller).resolvesIn_frameScopes
      rw [State.inner_onCaller, Surroundings.frameScopes_append hf] at hr
      exact ⟨hf, hr⟩

theorem inner_of_done {r : k.Result} {u : State}
    (hu : (x >>= drive fs) c (s.withInner caller) = .ok (.done r) u) :
    u.scopes.inner = caller := by
  rw [drive_onCaller hx c fs caller] at hu
  obtain ⟨q, t, h, hq, rfl⟩ := resultOn_eq_ok hu
  cases q with
  | paused q path => cases hq
  | done r =>
    have hd := Surroundings.follows_driven (hx {}) fs c
    rw [h] at hd
    rw [State.inner_onCaller, State.Keeps.inner_eq hd.1]
    rfl

theorem IgnoresCaller.of_follows : x.IgnoresCaller c s where
  onCaller := drive_onCaller hx c
  sight fs caller caller' := by
    rw [sight_onCaller hx c fs caller, sight_onCaller hx c fs caller']
  resolves fs caller _ _ _ _ := resolves_of_paused hx c fs caller
  returns fs caller _ _ := inner_of_done hx c fs caller

end Follows

/-- A call, of whatever value and with whatever arguments, ignores its caller. -/
theorem caller_independence (c : Config) (s : State) :
    (∀ f args, (call f args).IgnoresCaller c s) ∧
    (∀ target args, (invoke target args).IgnoresCaller c s) :=
  ⟨fun f args => .of_follows (fun _ => Surroundings.follows_call (Footing.allows_start _) f args) c,
    fun target args => .of_follows
      (fun _ => Surroundings.follows_invoke (Footing.allows_start _) target args) c⟩

/-- The computation is suspended where it looks up names. -/
def looksUp (x : RunM (Progress k)) (c : Config) (s : State) : Bool :=
  match x c s with
  | .ok (.paused p _) _ => p.looksUp
  | _ => false

/-- The scopes of a caller that has a variable of the same name as the callee. -/
def callerOfOne : List (Scope Place) := [⟨"function main", true, [("one", .slot 0)]⟩]

theorem caller_independence_of_one :
    ∃ (j : Completion) (p : Pause j) (path : Frames j .value) (t : State),
      (callOfOne >>= drive [id, id]) {} (stateOfOne.withInner callerOfOne) =
        .ok (.paused p path) t ∧
      ∃ own, t.scopes.inner = own ++ callerOfOne ∧ t.ResolvesIn (Scopes.frameScopes own) := by
  have hp : looksUp (callOfOne >>= drive [id, id]) {} (stateOfOne.withInner callerOfOne) := by
    decide +kernel
  unfold looksUp at hp
  split at hp
  · rename_i p path t h
    have hcall : callOfOne.IgnoresCaller {} stateOfOne :=
      (caller_independence {} stateOfOne).2 targetOfOne []
    obtain ⟨own, ht, hn, hr⟩ := hcall.resolves _ _ p path t h
    refine ⟨_, p, path, t, h, own, ht, (hr fun he => ?_).2⟩
    rw [hn he] at hp
    cases hp
  · cases hp

end RunM

end Stepwise
