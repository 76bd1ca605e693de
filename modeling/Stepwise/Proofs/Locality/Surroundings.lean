import Stepwise.Machine.Frame
import Stepwise.Machine.State
import Stepwise.Proofs.Overflow.Operators

/-! # Surroundings

What a computation goes on in and takes no part in it: the scopes of its callers, and
whether numbers that leave their range wrap around. A computation is moved to other
surroundings by putting scopes below its own. The depths at which its calls began move
with it.
-/

namespace Stepwise

/-! ## How scopes grow

What a computation may have done to the scopes when it ends, or while scopes of its own
are open. Scopes are never taken from below it and bindings stay as they are: there may
be more scopes on top, the innermost scope may have gained names, and the global scope
may have gained the names of functions.
-/

section Growth

namespace Scope

variable {α : Type}

/-- The scope with more names at the end. -/
def extend (s : Scope α) (more : List (String × α)) : Scope α :=
  { s with entries := s.entries ++ more }

@[simp] theorem extend_nil (s : Scope α) : s.extend [] = s := by
  simp only [extend, List.append_nil]

@[simp] theorem extend_extend (s : Scope α) (xs ys : List (String × α)) :
    (s.extend xs).extend ys = s.extend (xs ++ ys) := by
  simp only [extend, List.append_assoc]

theorem get?_extend {s : Scope α} {name : String} {a : α} (h : s.get? name = some a)
    (more : List (String × α)) : (s.extend more).get? name = some a := by
  unfold get? at h ⊢
  simp only [extend, List.lookup_append, h, Option.some_or]

/-- The scopes with more names in the first one. -/
def extendFirst (more : List (String × α)) : List (Scope α) → List (Scope α)
  | [] => []
  | s :: rest => s.extend more :: rest

@[simp] theorem extendFirst_nil (ss : List (Scope α)) : extendFirst [] ss = ss := by
  cases ss <;> simp only [extendFirst, extend_nil]

@[simp] theorem extendFirst_extendFirst (xs ys : List (String × α)) (ss : List (Scope α)) :
    extendFirst ys (extendFirst xs ss) = extendFirst (xs ++ ys) ss := by
  cases ss <;> simp only [extendFirst, extend_extend]

@[simp] theorem extendFirst_eq_nil {more : List (String × α)} {ss : List (Scope α)} :
    extendFirst more ss = [] ↔ ss = [] := by
  cases ss <;> simp [extendFirst]

theorem extendFirst_append {ss : List (Scope α)} (h : ss ≠ []) (more : List (String × α))
    (rest : List (Scope α)) : extendFirst more (ss ++ rest) = extendFirst more ss ++ rest := by
  cases ss with
  | nil => exact absurd rfl h
  | cons s ss => rfl

@[simp] theorem length_extendFirst (more : List (String × α)) (ss : List (Scope α)) :
    (extendFirst more ss).length = ss.length := by
  cases ss <;> rfl

end Scope

namespace State

variable {r s t : State} {n : Nat}

/-- There is a global function of the name. -/
def IsFunctionName (s : State) (name : String) : Prop :=
  (s.tables.table .global).contains name = true

/-- The global scope gained names of functions and no others. -/
structure GainsFunctions (s t : State) : Prop where
  names : ∀ name, s.IsFunctionName name → t.IsFunctionName name
  global : ∃ more, t.scopes.global = s.scopes.global.extend more ∧
    ∀ e ∈ more, t.IsFunctionName e.1

/-- `n` scopes are open above those of `s`, which are as they were. -/
structure Above (n : Nat) (s t : State) : Prop where
  inner : ∃ opened : List (Scope Place),
    opened.length = n ∧ t.scopes.inner = opened ++ s.scopes.inner
  functions : s.GainsFunctions t

/-- The scopes are as they were. -/
abbrev Keeps (s t : State) : Prop := Above 0 s t

/-- The innermost scope may have gained names, and the others are as they were. -/
structure Gains (s t : State) : Prop where
  names : ∀ name, s.IsFunctionName name → t.IsFunctionName name
  inner : ∃ more, t.scopes.inner = Scope.extendFirst more s.scopes.inner
  global : ∃ more, t.scopes.global = s.scopes.global.extend more ∧
    (s.scopes.inner ≠ [] → ∀ e ∈ more, t.IsFunctionName e.1)

theorem GainsFunctions.of_eq (hs : t.scopes.global = s.scopes.global) (ht : t.tables = s.tables) :
    s.GainsFunctions t where
  names name h := by rwa [IsFunctionName, ht]
  global := ⟨[], by rw [hs, Scope.extend_nil], fun e he => nomatch he⟩

theorem GainsFunctions.trans (h : r.GainsFunctions s) (h' : s.GainsFunctions t) :
    r.GainsFunctions t where
  names name hn := h'.names name (h.names name hn)
  global := by
    obtain ⟨xs, hxs, hf⟩ := h.global
    obtain ⟨ys, hys, hg⟩ := h'.global
    refine ⟨xs ++ ys, by rw [hys, hxs, Scope.extend_extend], fun e he => ?_⟩
    rcases List.mem_append.mp he with he | he
    · exact h'.names _ (hf e he)
    · exact hg e he

theorem Keeps.of_eq (hs : t.scopes = s.scopes) (ht : t.tables = s.tables) : s.Keeps t where
  inner := ⟨[], rfl, by rw [hs, List.nil_append]⟩
  functions := .of_eq (by rw [hs]) ht

theorem Keeps.refl (s : State) : s.Keeps s := .of_eq rfl rfl

theorem Keeps.inner_eq (h : s.Keeps t) : t.scopes.inner = s.scopes.inner := by
  obtain ⟨opened, ho, hi⟩ := h.inner
  rw [hi, List.length_eq_zero_iff.mp ho, List.nil_append]

theorem Above.trans {m : Nat} (h : Above m r s) (h' : Above n s t) : Above (n + m) r t where
  inner := by
    obtain ⟨xs, hx, hs⟩ := h.inner
    obtain ⟨ys, hy, ht⟩ := h'.inner
    exact ⟨ys ++ xs, by rw [List.length_append, hx, hy], by rw [ht, hs, List.append_assoc]⟩
  functions := h.functions.trans h'.functions

/-- What keeps the scopes may come after anything. -/
theorem Above.keeps (h : Above n r s) (h' : s.Keeps t) : Above n r t := by
  have := h.trans h'
  rwa [Nat.zero_add] at this

theorem Gains.of_keeps (h : s.Keeps t) : s.Gains t where
  names := h.functions.names
  inner := ⟨[], by rw [h.inner_eq, Scope.extendFirst_nil]⟩
  global := by
    obtain ⟨more, hm, hf⟩ := h.functions.global
    exact ⟨more, hm, fun _ => hf⟩

theorem Gains.refl (s : State) : s.Gains s := .of_keeps (.refl s)

theorem Gains.trans (h : r.Gains s) (h' : s.Gains t) : r.Gains t where
  names name hn := h'.names name (h.names name hn)
  inner := by
    obtain ⟨xs, hx⟩ := h.inner
    obtain ⟨ys, hy⟩ := h'.inner
    exact ⟨xs ++ ys, by rw [hy, hx, Scope.extendFirst_extendFirst]⟩
  global := by
    obtain ⟨xs, hxs, hf⟩ := h.global
    obtain ⟨ys, hys, hg⟩ := h'.global
    refine ⟨xs ++ ys, by rw [hys, hxs, Scope.extend_extend], fun hr e he => ?_⟩
    have hs : s.scopes.inner ≠ [] := by
      obtain ⟨more, hm⟩ := h.inner
      rw [hm]
      exact fun hn => hr (Scope.extendFirst_eq_nil.mp hn)
    rcases List.mem_append.mp he with he | he
    · exact h'.names _ (hf hr e he)
    · exact hg hs e he

theorem Gains.of_define? {name : String} {p : Place} {scopes : Scopes Place}
    (h : s.scopes.define? name p = some scopes) : s.Gains { s with scopes } where
  names name hn := hn
  inner := by
    obtain ⟨-, h⟩ := Option.ite_none_left_eq_some.mp h
    cases hi : s.scopes.inner with
    | nil => rw [hi] at h; cases h; exact ⟨[], rfl⟩
    | cons scope rest => rw [hi] at h; cases h; exact ⟨[(name, p)], rfl⟩
  global := by
    obtain ⟨-, h⟩ := Option.ite_none_left_eq_some.mp h
    cases hi : s.scopes.inner with
    | nil => rw [hi] at h; cases h; exact ⟨[(name, p)], rfl, fun hn => absurd rfl hn⟩
    | cons scope rest =>
      rw [hi] at h
      cases h
      exact ⟨[], (Scope.extend_nil _).symm, fun _ e he => nomatch he⟩

/-- Names that the innermost scope gains are in one of the open scopes, if there are any. -/
theorem Above.gains (h : Above (n + 1) r s) (h' : s.Gains t) : Above (n + 1) r t where
  inner := by
    obtain ⟨xs, hx, hs⟩ := h.inner
    obtain ⟨more, hm⟩ := h'.inner
    have hne : xs ≠ [] := List.ne_nil_of_length_eq_add_one hx
    exact ⟨Scope.extendFirst more xs, by rw [Scope.length_extendFirst, hx],
      by rw [hm, hs, Scope.extendFirst_append hne]⟩
  functions := by
    refine h.functions.trans ⟨h'.names, ?_⟩
    obtain ⟨more, hm, hf⟩ := h'.global
    refine ⟨more, hm, hf ?_⟩
    obtain ⟨xs, hx, hs⟩ := h.inner
    rw [hs]
    exact List.append_ne_nil_of_left_ne_nil (List.ne_nil_of_length_eq_add_one hx) _

/-- Leaving a scope that is open. -/
theorem Above.pop (h : Above (n + 1) s t) :
    Above n s { t with scopes := t.scopes.pop } where
  inner := by
    obtain ⟨xs, hx, hs⟩ := h.inner
    refine ⟨xs.tail, by rw [List.length_tail, hx, Nat.add_sub_cancel], ?_⟩
    simp only [Scopes.pop, hs]
    exact List.tail_append_of_ne_nil (List.ne_nil_of_length_eq_add_one hx)
  functions := ⟨h.functions.names, h.functions.global⟩

theorem Above.push (h : Above n s t) (scope : Scope Place) :
    Above (n + 1) s { t with scopes := { t.scopes with inner := scope :: t.scopes.inner } } where
  inner := by
    obtain ⟨xs, hx, hs⟩ := h.inner
    exact ⟨scope :: xs, by rw [List.length_cons, hx], by simp only [hs, List.cons_append]⟩
  functions := ⟨h.functions.names, h.functions.global⟩

/-- Leaving all scopes that were opened. -/
theorem Above.truncate (h : Above n s t) :
    s.Keeps { t with scopes := t.scopes.truncate s.scopes.depth } where
  inner := by
    obtain ⟨xs, -, hs⟩ := h.inner
    refine ⟨[], rfl, ?_⟩
    simp only [Scopes.truncate, Scopes.depth, hs, List.length_append, Nat.add_sub_cancel,
      List.drop_left, List.nil_append]
  functions := ⟨h.functions.names, h.functions.global⟩

end State

/-- Where a computation began, and whether it may add names to the innermost scope. -/
structure Footing where
  start : State
  declares : Bool

namespace Footing

variable {b : Footing} {s t : State}

/-- How the computation may leave the scopes when it ends. -/
def Allows (b : Footing) (t : State) : Prop :=
  if b.declares then b.start.Gains t else b.start.Keeps t

theorem Allows.keeps (h : b.Allows s) (h' : s.Keeps t) : b.Allows t := by
  unfold Allows at h ⊢
  split
  · rw [if_pos ‹_›] at h
    exact h.trans (.of_keeps h')
  · rw [if_neg ‹_›] at h
    exact h.keeps h'

theorem Allows.gains (h : b.Allows s) (hb : b.declares = true) (h' : s.Gains t) : b.Allows t := by
  unfold Allows at h ⊢
  rw [if_pos hb] at h ⊢
  exact h.trans h'

theorem Allows.toGains (h : b.Allows s) : b.start.Gains s := by
  unfold Allows at h
  split at h
  · exact h
  · exact .of_keeps h

theorem allows_start (b : Footing) : b.Allows b.start := by
  unfold Allows
  split
  · exact .refl _
  · exact .refl _

theorem allows_of_keeps (h : b.start.Keeps s) : b.Allows s := b.allows_start.keeps h

theorem allows_of_gains (hb : b.declares = true) (h : b.start.Gains s) : b.Allows s :=
  b.allows_start.gains hb h

/-- What keeps to the footing `c`, keeps to `b`. -/
structure Covers (b c : Footing) : Prop where
  declares : c.declares = true → b.declares = true
  allows : b.Allows c.start

variable {c d : Footing}

theorem Covers.of_allows (h : b.Allows s) : b.Covers ⟨s, false⟩ :=
  ⟨fun hf => Bool.noConfusion hf, h⟩

theorem Covers.of_declares {d : Bool} (hb : b.declares = true) (h : b.Allows s) :
    b.Covers ⟨s, d⟩ :=
  ⟨fun _ => hb, h⟩

theorem Covers.refl (b : Footing) : b.Covers b := ⟨id, b.allows_start⟩

theorem Covers.of_covered (h : b.Covers c) (hc : c.Allows s) : b.Allows s := by
  unfold Allows at hc
  split at hc
  · exact h.allows.gains (h.declares ‹_›) hc
  · exact h.allows.keeps hc

theorem Covers.trans (h : b.Covers c) (h' : c.Covers d) : b.Covers d :=
  ⟨fun hd => h.declares (h'.declares hd), h.of_covered h'.allows⟩

theorem above_of_allows {n : Nat} (h : s.Above (n + 1) b.start) (hb : b.Allows t) :
    s.Above (n + 1) t := h.gains hb.toGains

end Footing

end Growth

/-! ## What the computation goes on in -/

structure Surroundings where
  /-- The scopes between the global one and those of the computation. -/
  outer : List (Scope Place) := []
  /-- Numbers wrap around, whatever the configuration says. -/
  wraps : Bool := false

namespace Surroundings

def config (E : Surroundings) (c : Config) : Config :=
  { c with numerics := c.numerics.wrapping E.wraps }

def scopes (E : Surroundings) (s : Scopes Place) : Scopes Place :=
  { s with inner := s.inner ++ E.outer }

def state (E : Surroundings) (s : State) : State := { s with scopes := E.scopes s.scopes }

/-- No scopes of callers are in view. -/
def Admits (E : Surroundings) (s : State) : Prop :=
  E.outer = [] ∨ ∃ scope ∈ s.scopes.inner, scope.frame = true

variable {E : Surroundings} {s t : State} {n : Nat}

theorem Admits.of_mem {scope : Scope Place} (h : scope ∈ s.scopes.inner)
    (hf : scope.frame = true) : E.Admits s := .inr ⟨scope, h, hf⟩

theorem Admits.of_outer (h : E.outer = []) : E.Admits s := .inl h

theorem Admits.ne_nil (h : E.Admits s) : s.scopes.inner = [] → E.outer = [] := by
  intro hn
  rcases h with h | ⟨scope, hm, -⟩
  · exact h
  · rw [hn] at hm
    exact absurd hm (List.not_mem_nil)

theorem Admits.above (h : E.Admits s) (ha : State.Above n s t) : E.Admits t := by
  obtain ⟨opened, -, hi⟩ := ha.inner
  refine h.imp id fun ⟨scope, hm, hf⟩ => ⟨scope, ?_, hf⟩
  rw [hi]
  exact List.mem_append_right _ hm

theorem Admits.gains (h : E.Admits s) (hg : s.Gains t) : E.Admits t := by
  obtain ⟨more, hi⟩ := hg.inner
  refine h.imp id fun ⟨scope, hm, hf⟩ => ?_
  rw [hi]
  cases hs : s.scopes.inner with
  | nil => rw [hs] at hm; exact absurd hm List.not_mem_nil
  | cons first rest =>
    rw [hs] at hm
    rcases List.mem_cons.mp hm with rfl | hm
    · exact ⟨scope.extend more, List.mem_cons_self, hf⟩
    · exact ⟨scope, List.mem_cons_of_mem _ hm, hf⟩

theorem Admits.allows {b : Footing} (h : E.Admits b.start) (hb : b.Allows s) : E.Admits s :=
  h.gains hb.toGains

section Scopes

variable {c : Scopes Place} {name : String} {p : Place}

theorem frameScopes_append {inner outer : List (Scope Place)}
    (h : ∃ scope ∈ inner, scope.frame = true) :
    Scopes.frameScopes (inner ++ outer) = Scopes.frameScopes inner := by
  induction inner with
  | nil => obtain ⟨_, hm, -⟩ := h; exact absurd hm List.not_mem_nil
  | cons first rest ih =>
    cases hf : first.frame with
    | true => simp only [List.cons_append, Scopes.frameScopes, hf, if_true]
    | false =>
      obtain ⟨scope, hm, ht⟩ := h
      rcases List.mem_cons.mp hm with rfl | hm
      · rw [hf] at ht; cases ht
      · simp only [List.cons_append, Scopes.frameScopes, hf, Bool.false_eq_true, if_false,
          ih ⟨scope, hm, ht⟩]

theorem lookup_state (h : E.Admits s) (name : String) :
    (E.state s).lookup name = s.lookup name := by
  rcases h with h | h
  · simp only [state, scopes, h, List.append_nil]
  · simp only [State.lookup, Scopes.lookup, Scopes.visible, state, scopes, frameScopes_append h]

theorem value?_state (h : E.Admits s) (name : String) :
    (E.state s).value? name = s.value? name := by
  unfold State.value?
  rw [lookup_state h]
  rfl

theorem current_scopes (h : c.inner = [] → E.outer = []) : (E.scopes c).current = c.current := by
  unfold Scopes.current scopes
  cases hc : c.inner with
  | nil => simp only [h hc, List.append_nil]
  | cons scope rest => rfl

theorem define?_scopes (h : c.inner = [] → E.outer = []) (name : String) (p : Place) :
    (E.scopes c).define? name p = (c.define? name p).map E.scopes := by
  unfold Scopes.define?
  rw [current_scopes h]
  split
  · rfl
  · cases hc : c.inner with
    | nil => simp only [scopes, hc, h hc, List.append_nil, Option.map_some]
    | cons scope rest => simp only [scopes, hc, List.cons_append, Option.map_some]

theorem defineGlobal_scopes (c : Scopes Place) (name : String) (p : Place) :
    (E.scopes c).defineGlobal name p = E.scopes (c.defineGlobal name p) := by
  unfold Scopes.defineGlobal scopes
  split <;> rfl

theorem pop_scopes (h : c.inner = [] → E.outer = []) : (E.scopes c).pop = E.scopes c.pop := by
  unfold Scopes.pop scopes
  cases hc : c.inner with
  | nil => simp only [h hc, List.append_nil, List.tail_nil]
  | cons scope rest => rfl

theorem depth_scopes (c : Scopes Place) : (E.scopes c).depth = c.depth + E.outer.length := by
  simp only [Scopes.depth, scopes, List.length_append]
  omega

theorem truncate_scopes (c : Scopes Place) {depth : Nat} (h : 0 < depth) :
    (E.scopes c).truncate (depth + E.outer.length) = E.scopes (c.truncate depth) := by
  simp only [Scopes.truncate, scopes, Scopes.mk.injEq, and_true, List.length_append]
  have hn : c.inner.length + E.outer.length - (depth + E.outer.length - 1) =
      c.inner.length - (depth - 1) := by omega
  rw [hn, List.drop_append_of_le_length (by omega)]

end Scopes

end Surroundings

/-- The frame with callers below: only the end of a call knows how deep it is. -/
def Frame.under (n : Nat) : {j k : Completion} → Frame j k → Frame j k
  | _, _, .endCall entry depth => .endCall entry (depth + n)
  | _, _, f => f

namespace Frames

variable {j k l : Completion}

def under (n : Nat) : {j k : Completion} → Frames j k → Frames j k
  | _, _, nil => nil
  | _, _, cons f rest => cons (f.under n) (under n rest)

@[simp] theorem under_cons (n : Nat) (f : Frame j k) (fs : Frames k l) :
    (cons f fs).under n = cons (f.under n) (fs.under n) := rfl

theorem under_append (n : Nat) (fs : Frames j k) (gs : Frames k l) :
    (fs ++ gs).under n = fs.under n ++ gs.under n := by
  induction fs with
  | nil => rfl
  | cons f fs ih => simp only [cons_append, under_cons, ih]

theorem under_zero (fs : Frames j k) : fs.under 0 = fs := by
  induction fs with
  | nil => rfl
  | cons f fs ih =>
    rw [under_cons, ih]
    cases f <;> rfl

end Frames

namespace Progress

variable {k : Completion}

def under (n : Nat) : Progress k → Progress k
  | done r => done r
  | paused p path => paused p (path.under n)

theorem under_zero (p : Progress k) : p.under 0 = p := by
  cases p with
  | done r => rfl
  | paused p path => rw [under, Frames.under_zero]

end Progress

/-- A computation that has ended or is suspended, in its surroundings. -/
def Surroundings.progress (E : Surroundings) {k : Completion} (p : Progress k) : Progress k :=
  p.under E.outer.length

end Stepwise

/-! ## Balanced paths

Every frame of a suspended computation says which scopes are open while its result is
awaited: those of the statement that the frame belongs to, and none for a frame of an
expression. On a balanced path these numbers add up, so that the scopes in which the
computation began are still there, below the ones that the frames account for.
-/

namespace Stepwise

variable {E : Surroundings} {j k l : Completion} {s t : State} {b c top middle bottom : Footing}

/-- Declarations are the statements that add names to the innermost scope. -/
def Stmt.isDeclaration : Stmt → Bool
  | .declaration .. => true
  | _ => false

namespace Footing

/-- The second computation goes on inside the first one, which has `n` scopes open for it. -/
def Bears (bottom : Footing) : Nat → Footing → Prop
  | 0, top => bottom.Covers top
  | n + 1, top => bottom.start.Above (n + 1) top.start

variable {n : Nat}

theorem Bears.of_covers (hs : bottom.Bears n middle) (h : middle.Covers top) :
    bottom.Bears n top := by
  cases n with
  | zero => exact Covers.trans hs h
  | succ n => exact above_of_allows hs h.allows

theorem Bears.admits (hs : bottom.Bears n top) (ha : E.Admits bottom.start) :
    E.Admits top.start := by
  cases n with
  | zero => exact ha.allows (Covers.allows hs)
  | succ n => exact ha.above hs

end Footing

namespace Frame

/-- The scopes that a statement has open while the frame awaits a result. -/
def opened : Frame j k → Nat
  | .block .. | .popScope | .ifThen .. | .switch _ | .endSwitch => 1
  | .whileCondition .. | .whileBody .. | .doBody .. | .doCondition .. => 1
  | .forInit _ | .forCondition _ | .forBody _ | .forStep _ => 1
  | .eachRange .. | .eachIterable .. => 1
  | .eachBody _ => 2
  | _ => 0

/-- What the frame goes on with may add names to the innermost scope below it. -/
def declares : Frame j k → Bool
  | .defaultArgument .. | .bind .. | .caseLabel _ | .switchStatement _ | .items _ => true
  | _ => false

/-- How the footing of what a frame awaits relates to that of what the frame goes on with. -/
def Rests (E : Surroundings) (top bottom : Footing) : Frame j k → Prop
  | .endCall _ depth =>
    E.Admits top.start ∧ depth = bottom.start.scopes.depth ∧
      ∃ n, bottom.start.Above (n + 1) top.start
  | f =>
    E.Admits bottom.start ∧ (f.declares = true → bottom.declares = true) ∧
      bottom.Bears f.opened top

theorem Rests.of_covers {f : Frame j k} (h : middle.Covers top) (hf : f.Rests E middle bottom) :
    f.Rests E top bottom := by
  cases f with
  | endCall entry depth =>
    obtain ⟨ha, hd, n, hs⟩ := hf
    exact ⟨ha.allows h.allows, hd, n, Footing.above_of_allows hs h.allows⟩
  | _ =>
    obtain ⟨ha, hd, hs⟩ := hf
    exact ⟨ha, hd, hs.of_covers h⟩

/-- What a frame awaits sees no callers. -/
theorem Rests.admits {f : Frame j k} (hf : f.Rests E top bottom) : E.Admits top.start := by
  cases f with
  | endCall entry depth => exact hf.1
  | _ =>
    obtain ⟨ha, -, hs⟩ := hf
    exact hs.admits ha

end Frame

/-- The path leads from a footing to another one below. -/
inductive Frames.Leads (E : Surroundings) : Footing → Footing → {j k : Completion} →
    Frames j k → Prop
  | nil {top bottom : Footing} {k : Completion} (h : bottom.Covers top) :
    Leads E top bottom (nil : Frames k k)
  | cons {top middle bottom : Footing} {j k l : Completion} {f : Frame j k} {fs : Frames k l}
    (hf : f.Rests E top middle) (hfs : Leads E middle bottom fs) : Leads E top bottom (cons f fs)

namespace Frames.Leads

theorem one {f : Frame j k} (h : f.Rests E top bottom) : (Frames.one f).Leads E top bottom :=
  .cons h (.nil (.refl bottom))

theorem of_covers {fs : Frames j k} (h : middle.Covers top) (hfs : fs.Leads E middle bottom) :
    fs.Leads E top bottom := by
  cases hfs with
  | nil hb => exact .nil (hb.trans h)
  | cons hf hfs => exact .cons (hf.of_covers h) hfs

theorem append {fs : Frames j k} {gs : Frames k l} (h : fs.Leads E top middle)
    (h' : gs.Leads E middle bottom) : (fs ++ gs).Leads E top bottom := by
  induction h with
  | nil hb => exact h'.of_covers hb
  | cons hf _ ih => exact .cons hf (ih h')

theorem covered {fs : Frames j k} (h : fs.Leads E top b) (hb : c.Covers b) :
    fs.Leads E top c := by
  have := h.append (.nil hb)
  rwa [Frames.append_nil] at this

end Frames.Leads

namespace Pause

/-- The state in which a pause goes on: the block of a switch opens its scope. -/
def entered : Pause j → State → State
  | .switch _ true, s => { s with scopes := s.scopes.push "CompoundStatement" }
  | _, s => s

/-- What the pause goes on with may look up names. -/
def looksUp : Pause j → Bool
  | .input => false
  | _ => true

/-- What the pause goes on with may add names to the innermost scope. -/
def declares : Pause j → Bool
  | .start _ | .switch .. => true
  | .stmt s _ => s.isDeclaration
  | _ => false

/-- What the pause goes on with began at the footing. -/
structure Stands (E : Surroundings) (b : Footing) (p : Pause j) (s : State) : Prop where
  admits : p.looksUp = true → E.Admits b.start
  declares : p.declares = true → b.declares = true
  allows : b.Allows (p.entered s)

end Pause

/-- A computation that began at the footing has kept to it so far. -/
def Progress.At (E : Surroundings) (b : Footing) : Progress k → State → Prop
  | .done _, s => b.Allows s
  | .paused p path, s => ∃ top, p.Stands E top s ∧ path.Leads E top b

/-- While there are no scopes of its own, a suspended computation looks up no names. -/
theorem Progress.At.admits {p : Pause j} {path : Frames j k} (h : (paused p path).At E b s) :
    E.Admits s ∨ p.looksUp = false ∧ b.Allows s := by
  obtain ⟨top, hp, hpath⟩ := h
  cases p with
  | input =>
    cases hpath with
    | nil hb => exact .inr ⟨rfl, hb.of_covered hp.allows⟩
    | cons hf _ => exact .inl (hf.admits.allows hp.allows)
  | switch body opens =>
    refine .inl (((hp.admits rfl).allows hp.allows).imp id fun ⟨scope, hm, hf⟩ => ?_)
    cases opens with
    | false => exact ⟨scope, hm, hf⟩
    | true =>
      rcases List.mem_cons.mp hm with rfl | hm
      · cases hf
      · exact ⟨scope, hm, hf⟩
  | _ => exact .inl ((hp.admits rfl).allows hp.allows)

theorem Progress.At.covered {p : Progress k} (h : p.At E b s) (hc : c.Covers b) : p.At E c s := by
  cases p with
  | done r => exact hc.of_covered h
  | paused p path =>
    obtain ⟨top, hp, hpath⟩ := h
    exact ⟨top, hp, hpath.covered hc⟩

end Stepwise
