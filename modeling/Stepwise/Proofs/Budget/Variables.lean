import Stepwise.Proofs.Budget.Objects
import Stepwise.Proofs.Budget.Resolving
import Stepwise.Proofs.Constants.Declarations
import Stepwise.Proofs.Session.Evolution

/-! # Variables within a budget

Names of types come from declarators, so in every state of a run they are within the budget as far
as their structs are. A declaration either stays within the number of scalar cells that an object
may hold, or faults before anything is allocated, as far as the bounds that are written in it go.
What its structs hold is not counted against the budget.
-/

namespace Stepwise

section Declaring

namespace Ty

variable {limit : Nat}

theorem budgeted_arith (hlimit : 0 < limit) (k : ArithKind) : (arith k).Budgeted limit :=
  fun _ => ⟨1, rfl, hlimit⟩

/-- What arrays and functions become as values has no parts of its own. -/
theorem budgeted_decay (hlimit : 0 < limit) (ty : Ty) : ty.decay.Budgeted limit := by
  cases ty with
  | struct name members => exact fun hstructs => hstructs
  | _ => exact fun _ => ⟨1, rfl, hlimit⟩

end Ty

theorem State.Budgeted.define {limit : Nat} {s : State} (hs : s.Budgeted limit) {ty : Ty}
    (hty : ty.Budgeted limit) (name : String) :
    State.Budgeted limit { s with
      typedefs := (name, ty) :: s.typedefs.filter fun (n, _) => n != name } := by
  intro e he
  rcases List.mem_cons.mp he with rfl | he
  · exact hty
  · exact hs e (List.mem_filter.mp he).1

namespace RunM

variable {c : Config} {s : State} (hlimit : 0 < c.limits.maxCells)

include hlimit

/-- What is named by a `typedef` is within the budget as far as its structs are. -/
theorem budgeted_defineTypedefs (decl : Declaration) :
    (defineTypedefs decl).Maintains (State.Budgeted c.limits.maxCells) (fun _ => True) c
      fun _ => True := by
  have hT : Sequential fun _ x Q =>
      x.Maintains (State.Budgeted c.limits.maxCells) (fun _ => True) c Q :=
    sequential_maintains fun _ _ => trivial
  refine .bind (Q := Ty.Budgeted c.limits.maxCells) (.ask_of (fun _ => trivial) ?_)
    fun base hbase => .bind (Q := fun _ => True) (hT.forIn fun item => ?_) fun _ _ => .pure trivial
  · exact fun s ty hs h => ReadM.budgeted_of_baseType hlimit hs h
  · refine .bind (Q := fun d => d.type.Budgeted c.limits.maxCells)
      (.ask_of (fun _ => trivial) ?_) fun d hd => ?_
    · exact fun s d _ h => (ReadM.layered_budgeted hlimit).declarator hbase h
    · refine .bind (hT.nameOf d _) fun name _ => ?_
      exact .bind (.modify fun _ hs => hs.define hd name) fun _ _ => .pure rfl

theorem invariant_budgeted :
    Invariant (State.Budgeted c.limits.maxCells) (fun _ => True) c where
  raises _ _ := trivial
  orAt _ := trivial
  change {h} hh {s} hs := by
    unfold State.Budgeted
    rwa [hh.typedefs s]
  alloc _ hs := hs
  write _ hs := hs
  register := (sequential_maintains fun _ _ => trivial).register_of_change (fun {h} _ ht =>
    .modify fun s hs => by
      unfold State.Budgeted
      rwa [ht s]) fun _ => .fail (fun _ => trivial) _
  resolveCall := (sequential_maintains fun _ _ => trivial).resolveCall_of_change fun {h} _ ht =>
    .modify fun s hs => by
      unfold State.Budgeted
      rwa [ht s]
  nameArith name k := .modify fun _ hs => hs.define (Ty.budgeted_arith hlimit k) name
  defineTypedefs := budgeted_defineTypedefs hlimit

end RunM

/-- In every state of a run the types that have names are within the budget as far as their structs
are. -/
theorem Run.budgeted_play {c : Config} (hlimit : 0 < c.limits.maxCells) (p : Program)
    (console : Console) (files : FileSystem) (moves : List HostMove) :
    ((ofProgram c p console files).play moves).state.Budgeted c.limits.maxCells := by
  have hI := RunM.invariant_budgeted hlimit
  exact maintained_play (RunM.closed_maintains hI fun _ hs => hs) (fun _ hs => hs)
    (fun _ hs => hs) moves rfl nofun

namespace RunM

open ReadM

variable {c : Config} {s : State} {spec : TypeSpec} {d : Declarator} {D : Declared}

/-- A declaration of what would be over the budget faults, and does nothing else. -/
theorem declareOne_over_budget (hlimit : 0 < c.limits.maxCells)
    (hs : s.Budgeted c.limits.maxCells) (hauto : spec.isAuto = false) {n : Nat}
    (hn : c.limits.maxCells ≤ n) (h : declared spec d (c.withMaxCells n, s) = .ok D)
    (hstructs : D.type.StructsWithin c.limits.maxCells) (hover : ¬D.type.Within c.limits.maxCells)
    (init : Option Initializer) :
    declareOne spec ⟨d, init⟩ c s = .error (overBudget s) s := by
  have hfault : ask (declared spec d) c s = .error (overBudget s) s := by
    rw [ask, declared_over_budget hlimit hs hn h hstructs hover]
  unfold declareOne
  rw [hauto, if_neg Bool.false_ne_true]
  exact bind_error hfault

/-- What an `auto` declarator makes of a value is within the budget as far as its structs are. -/
theorem budgeted_of_auto (hlimit : 0 < c.limits.maxCells) {v : Value} {isConst : Bool}
    (h : declarator v.ty.decay isConst d (c, s) = .ok D) : D.type.Budgeted c.limits.maxCells :=
  (layered_budgeted hlimit).declarator (Ty.budgeted_decay hlimit v.ty) h

end RunM

end Declaring

open RunM

namespace Ty

variable {limit : Nat}

/-- There are no structs in a plain type. -/
theorem structsWithin_of_isPlain : (ty : Ty) → ty.isPlain = true → ty.StructsWithin limit
  | .array element _, hp => structsWithin_of_isPlain element hp
  | .void, _ | .arith _, _ | .pointer .., _ | .functionPointer _, _ | .function _, _
  | .marker, _ => trivial

theorem Budgeted.scalars_le {ty : Ty} (hb : ty.Budgeted limit) (hp : ty.isPlain = true) :
    ty.scalars ≤ limit := by
  obtain ⟨n, hn, hle⟩ := hb (structsWithin_of_isPlain ty hp)
  rwa [← cells?_eq_scalars ty hp hn]

end Ty

namespace RunM

variable {c : Config} {s t t' : State} {D : Declared} {name : String} {v : Value}

/-- A variable without an initializer or with any is made by itself, unless its bound is open. -/
theorem spends_initialValue (hp : D.type.isPlain = true) (hopen : D.openBound = false)
    (name : String) (init : Option Initializer) :
    (initialValue name D init).Spends D.type D.type.owned := by
  unfold initialValue
  rw [hopen]
  cases init with
  | some init => exact Spends.make hp rfl
  | none => exact Spends.make hp rfl

/-- The cell of a variable is a scalar one if its value is. -/
theorem scalars_defineVariable {a : Unit} (h : defineVariable name v c t = .ok a t') :
    t'.heap.scalars = t.heap.scalars + v.ty.unit := by
  obtain ⟨p, u, hp, h⟩ := bind_eq_ok h
  cases hp
  obtain ⟨scopes, -, rfl⟩ := declare_eq_ok h
  have hcell : ∀ w ∈ #[v], w.ty.isScalar = v.ty.isScalar := by simp
  have halloc := t.heap.scalars_alloc hcell
  rw [List.size_toArray, List.length_singleton, Nat.one_mul] at halloc
  exact halloc

/-- The scalar cells of a variable of a plain type, and no others, are allocated for it. -/
theorem fills_variable {init : Option Initializer} {a : Unit} (hp : D.type.isPlain = true)
    (hopen : D.openBound = false) (hv : (initialValue name D init).Completes c s v t)
    (hname : defineVariable name v c t = .ok a t') :
    ∃ n k, (initialValue name D init).Fills c s n v t ∧
      t'.heap.scalars = t.heap.scalars + k ∧ n + k = D.type.scalars := by
  obtain ⟨hfills, hscalar⟩ := (spends_initialValue hp hopen name init).fills hv
  refine ⟨_, _, hfills, scalars_defineVariable hname, ?_⟩
  have hunit : v.ty.unit = D.type.unit := by rw [Ty.unit, hscalar, Ty.unit]
  rw [hunit, Ty.owned_add_unit D.type hp]

end RunM

/-- The bounds that declarators write keep every object within the budget. In all states of a run,
the type of a declarator, after a specifier, an `auto` or the name of a type, holds no more cells
than the budget allows, as far as the structs in it do. What would hold more faults, and the
state is as it was before. And an object without structs that is declared gets the cells of its
type, which are within the budget, however often its initializers suspend the run. -/
theorem RunM.cell_budget (c : Config) (hlimit : 0 < c.limits.maxCells) :
    (∀ p console files moves, State.Budgeted c.limits.maxCells
      ((Run.ofProgram c p console files).play moves).state) ∧
    ∀ s : State, s.Budgeted c.limits.maxCells → ∀ spec d,
      (∀ D, ReadM.declared spec d (c, s) = .ok D →
        D.type.StructsWithin c.limits.maxCells → D.type.Within c.limits.maxCells) ∧
      (∀ (v : Value) D, ReadM.declarator v.ty.decay spec.isConst d (c, s) = .ok D →
        D.type.StructsWithin c.limits.maxCells → D.type.Within c.limits.maxCells) ∧
      (∀ n D init, spec.isAuto = false → c.limits.maxCells ≤ n →
        ReadM.declared spec d (c.withMaxCells n, s) = .ok D →
        D.type.StructsWithin c.limits.maxCells → ¬D.type.Within c.limits.maxCells →
        declareOne spec ⟨d, init⟩ c s = .error (ReadM.overBudget s) s) ∧
      ∀ D name init v t t', ReadM.declared spec d (c, s) = .ok D → D.type.isPlain = true →
        D.openBound = false → (initialValue name D init).Completes c s v t →
        defineVariable name v c t = .ok () t' →
        ∃ n k, (initialValue name D init).Fills c s n v t ∧
          t'.heap.scalars = t.heap.scalars + k ∧ n + k = D.type.scalars ∧
          n + k ≤ c.limits.maxCells := by
  refine ⟨Run.budgeted_play hlimit, fun s hs spec d => ⟨fun D h => ?_, fun v D h => ?_,
    fun n D init hauto hn h hstructs hover => ?_, fun D name init v t t' h hp hopen hv hname => ?_⟩⟩
  · exact ReadM.budgeted_of_declared hlimit hs h
  · exact budgeted_of_auto hlimit h
  · exact declareOne_over_budget hlimit hs hauto hn h hstructs hover init
  · obtain ⟨n, k, hfills, hk, hsum⟩ := fills_variable hp hopen hv hname
    have hle := (ReadM.budgeted_of_declared hlimit hs h).scalars_le hp
    exact ⟨n, k, hfills, hk, hsum, hsum ▸ hle⟩

/-- No object may hold more than four cells. -/
def configOfFour : Config := Config.withMaxCells {} 4

/-- `int a[size];` -/
def arrayOf (size : Nat) : Declarator :=
  .mk default [] false (.named "a") [.array (some (.literal default (.int size 10 false false)))]

/-- What that declares. -/
def declaredArray (size : Nat) : Declared :=
  ⟨some "a", .array .int size, false, false, false, []⟩

theorem RunM.cell_budget_of_four :
    declareOne ⟨[], ["int"], default⟩ ⟨arrayOf 5, none⟩ configOfFour {} =
      .error (ReadM.overBudget {}) {} ∧
    ∃ n k v t, (initialValue "a" (declaredArray 4) none).Fills configOfFour {} n v t ∧
      n + k = 4 := by
  have hbudget := (cell_budget configOfFour (by decide)).2 {} nofun ⟨[], ["int"], default⟩
  refine ⟨?_, ?_⟩
  · obtain ⟨-, -, hover, -⟩ := hbudget (arrayOf 5)
    refine hover 5 (declaredArray 5) none rfl (by decide) rfl trivial ?_
    rintro ⟨n, hn, hle⟩
    have hfive : (declaredArray 5).type.cells? = some 5 := by decide
    cases hfive.symm.trans hn
    exact absurd hle (by decide)
  · obtain ⟨-, -, -, hfills⟩ := hbudget (arrayOf 4)
    obtain ⟨n, k, hn, -, hsum, -⟩ := hfills (declaredArray 4) "a" none _ _ _ rfl rfl rfl
      ⟨[], rfl⟩ rfl
    exact ⟨n, k, _, _, hn, hsum⟩

/-- `struct S { int a[3]; int b[3]; }; S s; int main() { return 0; }` -/
def Program.structOfSix : Program where
  includes := []
  items :=
    let three : Expr := .literal default (.int 3 10 false false)
    let member (name : String) : MemberDecl :=
      ⟨⟨[], ["int"], default⟩, .mk default [] false (.named name) [.array (some three)], none⟩
    [.struct default "S" [member "a", member "b"] [],
      .declaration default ⟨⟨[], ["S"], default⟩,
        [⟨.mk default [] false (.named "s") [], none⟩]⟩,
      .function default (.mk ⟨[], ["int"], default⟩
        (.mk default [] false (.named "main") [.params [] false])
        (.compound default [.returnJump default (some (.literal default (.int 0 10 false false)))]))]

/-- Where an object may hold four cells, a variable of a struct holds six. -/
theorem RunM.budget_exceeded_by_struct :
    let r := Run.ofProgram configOfFour .structOfSix {} {}
    r.config.limits.maxCells = 4 ∧
    ((r.steps 3).state.scopes.bindings.map Prod.fst, (r.steps 3).state.heap.scalars) = (["s"], 6) ∧
    (r.steps 8).exitStatus? = some 0 := by
  decide +kernel

end Stepwise
