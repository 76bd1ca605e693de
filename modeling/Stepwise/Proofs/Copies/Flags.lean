import Stepwise.Machine.Loop
import Stepwise.Proofs.Closure.Drives
import Stepwise.Proofs.Constants.Declarations
import Stepwise.Proofs.Copies.Pointers
import Stepwise.Session.Run

/-! # Flags of copies

A copy of a struct is not constant, but its parts are constant where those of the original are. So
they are constant as their members are declared only if the parts of the original are. A struct that
is assigned to keeps the flags of its members, and has the flags of the other one below them.
-/

namespace Stepwise

open Value

/-- The part at the end of a way down from an object of the type lies under a member that is declared
constant. -/
def Ty.constantAt (members : String → List MemberTy) : Ty → List Nat → Bool
  | .struct name _, i :: path =>
    (members name)[i]?.any fun m => m.readonly || m.ty.constantAt members path
  | .array element _, _ :: path => element.constantAt members path
  | _, _ => false

namespace Heap

variable {h h' h'' : Heap} {v w : Value} {path : List Nat}

/-- The part at the end of the way down is constant if it lies under a member that is declared so,
and only then. -/
def AsDeclared (h : Heap) (members : String → List MemberTy) (v : Value) (path : List Nat) : Prop :=
  ∀ w, h.part? v path = some w → w.readonly = v.ty.constantAt members path

theorem map_readonly {x y : Option Value} (hxy : x.map contents = y.map contents) :
    x.map readonly = y.map readonly := by
  have hflags := congrArg (Option.map readonly) hxy
  rwa [Option.map_map, Option.map_map] at hflags

/-- A part with the same flag is as it is declared if the other one is. -/
theorem AsDeclared.of_readonly {members : String → List MemberTy}
    (hv : h.AsDeclared members v path)
    (hty : w.ty.constantAt members path = v.ty.constantAt members path)
    (hpath : (h'.part? w path).map readonly = (h.part? v path).map readonly) :
    h'.AsDeclared members w path := by
  intro x hx
  rw [hx, Option.map_some] at hpath
  obtain ⟨y, hy, hr⟩ := Option.map_eq_some_iff.mp hpath.symm
  rw [hty, ← hr, hv y hy]

/-- A copy that is not constant. -/
structure PlainCopy (h : Heap) (v : Value) (h' : Heap) (w : Value) : Prop extends
    Copies 0 h v h' w where
  writable : w.readonly = false

/-- A copy in a cell of its own. -/
theorem PlainCopy.alloc (hw : PlainCopy h v h' w) (hc : h'.Closed) (p : Place) :
    PlainCopy h v (h'.alloc #[w]).2 (w.placed p) where
  root := hw.root
  parts path hp := by
    rw [part?_congr (v := w.placed p) (w := w) rfl rfl hp,
      (hw.toCopies.extend hc (.alloc h' #[w]) .nothing).parts path hp]
  owned path b hb := by
    rw [partBlock?_placed] at hb
    exact (hw.toCopies.extend hc (.alloc h' #[w]) .nothing).owned path b hb
  writable := hw.writable

end Heap

namespace OperatorM

open Heap

variable {h h' : Heap} {v w : Value} {tag : String} {ms : List MemberTy} {ctx : OperatorContext}

/-- Where a struct is expected, there is a deep copy or a fault. -/
theorem copy_struct (hx : copy v (.struct tag ms) ctx h = .ok w h') :
    (HeapM.deepCopy v.rvalue).run h = (w, h') := by
  unfold copy convert at hx
  split at hx
  · rename_i hsame
    obtain ⟨ms', hty⟩ := named_eq_struct (Ty.beq_iff_named.mp hsame)
    have hr : v.rvalue.ty = .struct tag ms' := hty
    simp only [pure_bind, hr] at hx
    change EStateM.Result.ok _ _ = _ at hx
    cases hx
    rfl
  · cases hx

/-- The copy is plain. -/
theorem plainCopy_of_copy (hc : h.Closed) (hcov : h.Covers v)
    (hx : copy v (.struct tag ms) ctx h = .ok w h') :
    h.PlainCopy v h' w ∧ h'.Closed ∧ h.GrowsTo h' := by
  have hone := HeapM.duplicates_deepCopy (v := v.rvalue) hc hcov
  rw [copy_struct hx] at hone
  exact ⟨⟨hone.copies.of_rvalue.of_le (Nat.zero_le _), (congrArg readonly hone.rvalue).symm⟩,
    hone.closed, hone.grows⟩

/-- Whatever is copied, the heap stays closed. -/
theorem extends_of_copy {ty : Ty} (hc : h.Closed) (hcov : h.Covers v)
    (hx : copy v ty ctx h = .ok w h') : h'.Closed ∧ h.GrowsTo h' := by
  by_cases hty : ∃ tag ms, ty = .struct tag ms
  · obtain ⟨tag, ms, rfl⟩ := hty
    exact (plainCopy_of_copy hc hcov hx).2
  · obtain ⟨rfl, -⟩ := gives_copy v (fun tag ms h => hty ⟨tag, ms, h⟩) ctx w h' hx
    exact ⟨hc, .refl _⟩

end OperatorM

/-- A declared struct variable that is neither constant nor a reference. -/
structure Declared.IsCopy (d : Declared) (name : String) : Prop where
  name : d.name = some name
  readonly : d.readonly = false
  reference : d.reference = false
  type : ∃ tag members, d.type = .struct tag members

namespace RunM

open Heap

/-- The ways in which an object that is not constant gets the value of a struct object: `w` is the
object, and `m` the one whose members have the flags that its members get. -/
inductive TakesValue (c : Config) (s : State) (v : Value) : Value → State → Value → Prop
  /-- A variable with the value for its initializer. -/
  | declaration {t u : State} {w w' : Value} {name tag : String} {ms : List MemberTy} {ty : Ty}
    {a : Unit} (hty : ty = .struct tag ms)
    (hm : make (.copy ty v false) c s = .ok (.done w') u)
    (hb : bind (.name name) w' c u = .ok a t) (hw : t.value? name = some w) :
    TakesValue c s v v t w
  /-- A variable whose type is deduced. -/
  | deduction {t : State} {w : Value} {name : String} {spec : TypeSpec} {span : Span}
    {pointers : List Bool} {base : DeclaratorBase} {suffixes : List DeclaratorSuffix}
    {declared : Declared} {a : Unit}
    (hd : ReadM.declarator v.ty.decay spec.isConst (.mk span pointers false base suffixes) (c, s) =
      .ok declared) (hc : declared.IsCopy name)
    (hb : bindAuto spec (.mk span pointers false base suffixes) v c s = .ok a t)
    (hw : t.value? name = some w) : TakesValue c s v v t w
  /-- The variable of a loop over elements. -/
  | element {t : State} {w : Value} {name : String} {spec : TypeSpec} {d : Declarator} {base : Ty}
    {declared : Declared} {a : Unit}
    (hbase : if spec.isAuto then base = v.ty else ReadM.baseType spec (c, s) = .ok base)
    (hd : ReadM.declarator base spec.isConst d (c, s) = .ok declared) (hc : declared.IsCopy name)
    (hb : bindElement spec d v c s = .ok a t) (hw : t.value? name = some w) :
    TakesValue c s v v t w
  /-- An argument that is not shared. -/
  | argument {t : State} {w : Value} {tag : String} {ms : List MemberTy} {vs bound : List Value} 
    {actions : List ArgAction} {params : List ParamTy} {param : ParamTy} {i : Nat}
    (hcov : ∀ x ∈ vs, s.heap.Covers x)
    (hb : boundArguments vs actions params c s = .ok bound t)
    (hv : vs[i]? = some v) (hp : params[i]? = some param) (hw : bound[i]? = some w)
    (hty : param.ty = .struct tag ms) (hr : param.readonly = false)
    (ha : actions[i]? ≠ some .share) : TakesValue c s v v t w
  /-- What a function returns. -/
  | result {t : State} {w : Value} {tag : String} {ms : List MemberTy} {entry : FunctionEntry} (hty : entry.type.ret = .struct tag ms)
    (h : returned entry (.returns (some v)) c s = .ok w t) : TakesValue c s v v t w
  /-- An object that is assigned to. -/
  | assignment {t : State} {w l : Value} {name : String} {target source : BlockId}
    (hl : s.heap.Assignable name l v target source)
    (h : operate (Operator.assign.apply l (some v)) c s = .ok w t) : TakesValue c s v l t w

variable {c : Config} {s t u : State} {v w : Value} {name tag : String}
  {ms : List MemberTy}

/-- What a name stands for that was just declared for a variable of its own. -/
theorem value?_of_defineVariable {a : Unit} (h : defineVariable name v c s = .ok a t) :
    t.heap = (s.heap.alloc #[v]).2 ∧ t.value? name = some (v.placed (.slot s.heap.blocks.size)) := by
  obtain ⟨p, u, hp, h⟩ := bind_eq_ok h
  cases hp
  obtain ⟨scopes, hd, rfl⟩ := declare_eq_ok h
  refine ⟨rfl, ?_⟩
  have hlookup : State.lookup { s with heap := (s.heap.alloc #[v]).2, scopes } name =
      some (.slot s.heap.blocks.size) := by
    rw [State.lookup, Scopes.lookup_define? hd]
    rfl
  have hcells : (s.heap.alloc #[v]).2.cells s.heap.blocks.size = #[v] := by
    rw [Heap.cells_alloc, if_pos rfl]
  refine (congrArg (Option.bind · _) hlookup).trans ?_
  change (s.heap.alloc #[v]).2.load? (.slot s.heap.blocks.size) = _
  rw [Heap.load?, Place.slot, hcells]
  rfl

section Sites

variable (hc : s.heap.Closed) (hcov : s.heap.Covers v)

include hc hcov

theorem plainCopy_of_operate (h : operate (OperatorM.copy v (.struct tag ms)) c s = .ok w t) :
    s.heap.PlainCopy v t.heap w ∧ t.heap.Closed ∧ s.heap.GrowsTo t.heap := by
  obtain ⟨heap, hx, rfl⟩ := operate_eq_ok h
  exact OperatorM.plainCopy_of_copy hc hcov hx

theorem extends_of_operate {ty : Ty} (h : operate (OperatorM.copy v ty) c s = .ok w t) :
    t.heap.Closed ∧ s.heap.GrowsTo t.heap := by
  obtain ⟨heap, hx, rfl⟩ := operate_eq_ok h
  exact OperatorM.extends_of_copy hc hcov hx

/-- A copy in a variable of its own. -/
theorem plainCopy_of_variable {x : String} {readonly : Bool} {a : Unit} (hr : readonly = false)
    (h : (do
      defineVariable x
        ((← operate (OperatorM.copy v (.struct tag ms))).withReadonly readonly)) c s = .ok a t)
    (hw : t.value? x = some w) : s.heap.PlainCopy v t.heap w := by
  obtain ⟨copied, u, hcopy, h⟩ := bind_eq_ok h
  obtain ⟨hplain, hclosed, -⟩ := plainCopy_of_operate hc hcov hcopy
  obtain ⟨hheap, hvalue⟩ := value?_of_defineVariable h
  cases hw.symm.trans hvalue
  subst hr
  rw [hheap]
  exact PlainCopy.alloc ⟨hplain.toCopies.flagged false, rfl⟩ hclosed _

/-- What a declarator declares for a copy. -/
theorem plainCopy_of_declarator {base : Ty} {spec : TypeSpec} {d : Declarator} {declared : Declared}
    {what : String} {a : Unit} (hd : ReadM.declarator base spec.isConst d (c, s) = .ok declared)
    (hcopy : declared.IsCopy name)
    (h : (do
      let declared ← ask (ReadM.declarator base spec.isConst d)
      let name ← nameOf declared what
      if declared.reference then bindReference name declared v
      else
        defineVariable name
          ((← operate (OperatorM.copy v declared.type)).withReadonly declared.readonly)) c s =
      .ok a t) (hw : t.value? name = some w) : s.heap.PlainCopy v t.heap w := by
  obtain ⟨declared', u, hask, hrest⟩ := bind_eq_ok h
  obtain ⟨hask, rfl⟩ := ask_eq_ok hask
  cases hd.symm.trans hask
  obtain ⟨x, u', hname, hbind⟩ := bind_eq_ok hrest
  obtain ⟨hx, rfl⟩ := nameOf_eq_ok hname
  cases hx.symm.trans hcopy.name
  obtain ⟨tag, ms, hty⟩ := hcopy.type
  simp only [hcopy.reference, hty, Bool.false_eq_true, if_false] at hbind
  exact plainCopy_of_variable hc hcov hcopy.readonly hbind hw

end Sites

section Arguments

variable {vs bound : List Value} {actions : List ArgAction} {params : List ParamTy}

/-- The first argument stays as it is, or is copied for its parameter. -/
theorem boundArguments_cons (h : boundArguments (v :: vs) actions params c s = .ok bound t) :
    ∃ w ws u, bound = w :: ws ∧ boundArguments vs actions.tail params.tail c u = .ok ws t ∧
      (u = s ∧ (params = [] ∨ actions.head? = some .share) ∨
        ∃ param rest copied, params = param :: rest ∧
          operate (OperatorM.copy v param.ty) c s = .ok copied u ∧
          w = copied.withReadonly param.readonly) := by
  have hrest (w : Value) {u : State}
      (h : (do return w :: (← boundArguments vs actions.tail params.tail)) c u = .ok bound t) :
      ∃ ws, bound = w :: ws ∧ boundArguments vs actions.tail params.tail c u = .ok ws t := by
    obtain ⟨ws, u', hws, h⟩ := bind_eq_ok h
    cases h
    exact ⟨ws, rfl, hws⟩
  unfold boundArguments at h
  cases params with
  | nil =>
    obtain ⟨ws, hbound, hws⟩ := hrest v.rvalue h
    exact ⟨v.rvalue, ws, s, hbound, hws, .inl ⟨rfl, .inl rfl⟩⟩
  | cons param rest =>
    dsimp only at h
    split at h
    · rename_i hshare
      obtain ⟨ws, hbound, hws⟩ := hrest v h
      exact ⟨v, ws, s, hbound, hws, .inl ⟨rfl, .inr (by simp_all)⟩⟩
    · obtain ⟨copied, u, hcopy, h⟩ := bind_eq_ok h
      obtain ⟨ws, hbound, hws⟩ := hrest (copied.withReadonly param.readonly) h
      exact ⟨_, ws, u, hbound, hws, .inr ⟨param, rest, copied, rfl, hcopy, rfl⟩⟩

theorem extends_of_boundArguments (hc : s.heap.Closed) (hcov : ∀ v ∈ vs, s.heap.Covers v)
    (h : boundArguments vs actions params c s = .ok bound t) :
    t.heap.Closed ∧ s.heap.GrowsTo t.heap := by
  induction vs generalizing actions params bound s with
  | nil =>
    cases h
    exact ⟨hc, .refl _⟩
  | cons v vs ih =>
    obtain ⟨hv, hvs⟩ := List.forall_mem_cons.mp hcov
    obtain ⟨w, ws, u, -, hws, ⟨rfl, -⟩ | ⟨param, rest, copied, -, hcopy, -⟩⟩ :=
      boundArguments_cons h
    · exact ih hc hvs hws
    · obtain ⟨hc', hs⟩ := extends_of_operate hc hv hcopy
      obtain ⟨hc'', hs'⟩ := ih hc' (fun x hx => (hvs x hx).mono hs) hws
      exact ⟨hc'', hs.trans hs'⟩

/-- An argument that is not shared is copied as it was before the arguments in front of it. -/
theorem plainCopy_of_boundArguments {param : ParamTy} {i : Nat} (hc : s.heap.Closed)
    (hcov : ∀ v ∈ vs, s.heap.Covers v) (h : boundArguments vs actions params c s = .ok bound t)
    (hv : vs[i]? = some v) (hp : params[i]? = some param) (hw : bound[i]? = some w)
    (hty : param.ty = .struct tag ms) (hr : param.readonly = false)
    (ha : actions[i]? ≠ some .share) : s.heap.PlainCopy v t.heap w := by
  induction vs generalizing actions params bound i s with
  | nil => cases hv
  | cons x vs ih =>
    obtain ⟨hx, hvs⟩ := List.forall_mem_cons.mp hcov
    obtain ⟨y, ws, u, rfl, hws, hfirst⟩ := boundArguments_cons h
    have hgrows : u.heap.Closed ∧ s.heap.GrowsTo u.heap := by
      rcases hfirst with ⟨rfl, -⟩ | ⟨param, rest, copied, -, hcopy, -⟩
      · exact ⟨hc, .refl _⟩
      · exact extends_of_operate hc hx hcopy
    have hvs' : ∀ v ∈ vs, u.heap.Covers v := fun v hv => (hvs v hv).mono hgrows.2
    cases i with
    | zero =>
      cases hv
      cases hw
      rcases hfirst with ⟨-, hnil | hshare⟩ | ⟨param', rest, copied, rfl, hcopy, rfl⟩
      · rw [hnil] at hp
        cases hp
      · exact absurd (List.head?_eq_getElem? ▸ hshare) ha
      · cases hp
        rw [hty] at hcopy
        obtain ⟨hplain, hc', -⟩ := plainCopy_of_operate hc hx hcopy
        have hs := (extends_of_boundArguments hc' hvs' hws).2
        exact ⟨(hplain.toCopies.flagged _).extend hc' hs .nothing, hr⟩
    | succ i =>
      have hplain := ih hgrows.1 hvs' hws hv (by rwa [List.getElem?_tail]) hw
        (by rwa [List.getElem?_tail])
      have hv' : s.heap.Covers v := hvs v (List.mem_of_getElem? hv)
      exact ⟨hplain.toCopies.before hgrows.2 hc hv' .nothing, hplain.writable⟩

end Arguments

/-- A copy is made at once. -/
theorem operate_of_make {ty : Ty} {readonly : Bool}
    (h : make (.copy ty v readonly) c s = .ok (.done w) t) :
    ∃ copied, operate (OperatorM.copy v ty) c s = .ok copied t ∧
      w = copied.withReadonly readonly := by
  obtain ⟨copied, u, hcopy, h⟩ := bind_eq_ok (x := operate (OperatorM.copy v ty)) h
  cases h
  exact ⟨copied, hcopy, rfl⟩

/-- The flags of an object that has taken a value: its members are flagged as those of `m`, and what
is below them as in the value. -/
structure TakesFlags (s : State) (v m : Value) (t : State) (w : Value) : Prop where
  writable : w.readonly = false
  types : ∀ members path, w.ty.constantAt members path = v.ty.constantAt members path ∧
    w.ty.constantAt members path = m.ty.constantAt members path
  members : ∀ i, (t.heap.part? w [i]).map readonly = (s.heap.part? m [i]).map readonly
  below : ∀ path, 2 ≤ path.length →
    (t.heap.part? w path).map readonly = (s.heap.part? v path).map readonly

theorem takesFlags_of_plainCopy (hw : s.heap.PlainCopy v t.heap w) : TakesFlags s v v t w where
  writable := hw.writable
  types members path := by
    have hty : w.ty = v.ty := (congrArg Value.ty hw.root :)
    rw [hty, and_self_iff]
  members i := map_readonly (hw.parts [i] (List.cons_ne_nil i []))
  below path hpath := map_readonly (hw.parts path (List.ne_nil_of_length_pos (by omega)))

theorem takesFlags_of_assign {l : Value} {target source : BlockId}
    (hl : s.heap.Assignable name l v target source)
    (h : operate (Operator.assign.apply l (some v)) c s = .ok w t) : TakesFlags s v l t w := by
  obtain ⟨heap, hx, rfl⟩ := operate_eq_ok h
  obtain ⟨h', hx', hs⟩ := Operator.assign_struct hl ⟨c.numerics, s.tables, s.cursor⟩
  cases hx.symm.trans hx'
  have htypes (members : String → List MemberTy) (path : List Nat) :
      w.ty.constantAt members path = v.ty.constantAt members path := by
    obtain ⟨ms, hty⟩ := hl.left.type
    obtain ⟨ms', hty'⟩ := hl.right.type
    rw [hty, hty']
    cases path <;> rfl
  by_cases hsame : target = source
  · rw [if_pos hsame] at hs
    subst hs
    subst hsame
    refine ⟨hl.writable, fun members path => ⟨htypes members path, rfl⟩, fun _ => rfl, fun path hp => ?_⟩
    have hblock := hl.left.block?.trans hl.right.block?.symm
    rw [part?_congr hblock (hl.left.partRole.trans hl.right.partRole.symm)
      (List.ne_nil_of_length_pos (by omega))]
  · rw [if_neg hsame] at hs
    exact {
      writable := hl.writable
      types := fun members path => ⟨htypes members path, rfl⟩
      members := hs.flags hl
      below := fun path hp => map_readonly (hs.contents hl hp) }

/-- Whichever way an object takes a value, it takes its flags. -/
theorem TakesValue.takesFlags {m : Value} (hx : TakesValue c s v m t w) (hc : s.heap.Closed)
    (hcov : s.heap.Covers v) : TakesFlags s v m t w := by
  cases hx with
  | declaration hty hm hb hw =>
    obtain ⟨copied, hcopy, rfl⟩ := operate_of_make hm
    subst hty
    exact takesFlags_of_plainCopy (plainCopy_of_variable hc hcov rfl ((bind_ok hcopy).trans hb) hw)
  | deduction hd hcopy hb hw =>
    exact takesFlags_of_plainCopy (plainCopy_of_declarator hc hcov hd hcopy hb hw)
  | @element t w name spec d base declared a hbase hd hcopy hb hw =>
    refine takesFlags_of_plainCopy ?_
    unfold bindElement at hb
    split at hb
    · rename_i hauto
      rw [if_pos hauto] at hbase
      subst hbase
      exact plainCopy_of_declarator hc hcov hd hcopy hb hw
    · rename_i hauto
      rw [if_neg hauto] at hbase
      obtain ⟨base', u, hask, hbind⟩ := bind_eq_ok hb
      obtain ⟨hask, rfl⟩ := ask_eq_ok hask
      cases hbase.symm.trans hask
      exact plainCopy_of_declarator hc hcov hd hcopy hbind hw
  | argument hvs hb hv hp hw hty hr ha =>
    exact takesFlags_of_plainCopy (plainCopy_of_boundArguments hc hvs hb hv hp hw hty hr ha)
  | result hty h =>
    unfold returned at h
    simp only [hty, Ty.isVoid, Bool.false_eq_true, if_false] at h
    exact takesFlags_of_plainCopy (plainCopy_of_operate hc hcov h).1
  | assignment hl h => exact takesFlags_of_assign hl h

/-- An object that takes a value is constant just where its members are declared so if that holds of
the members that it had, or of those of the value if it is new, and of the parts of the value below. -/
theorem takesValue_asDeclared_iff (members : String → List MemberTy) {m : Value}
    (hc : s.heap.Closed) (hcov : s.heap.Covers v) (hx : TakesValue c s v m t w) :
    w.readonly = false ∧ ((∀ path ≠ [], t.heap.AsDeclared members w path) ↔
      (∀ i, s.heap.AsDeclared members m [i]) ∧
        ∀ path, 2 ≤ path.length → s.heap.AsDeclared members v path) := by
  have hf := hx.takesFlags hc hcov
  refine ⟨hf.writable, fun hw => ⟨fun i => ?_, fun path hp => ?_⟩, fun ⟨hm, hv⟩ path hp => ?_⟩
  · exact (hw [i] (List.cons_ne_nil i [])).of_readonly (hf.types members [i]).2.symm
      (hf.members i).symm
  · exact (hw path (List.ne_nil_of_length_pos (by omega))).of_readonly
      (hf.types members path).1.symm (hf.below path hp).symm
  · match path, hp with
    | [i], _ => exact (hm i).of_readonly (hf.types members [i]).2 (hf.members i)
    | i :: j :: path, _ =>
      have hlength : 2 ≤ (i :: j :: path).length := Nat.le_add_left 2 path.length
      exact (hv _ hlength).of_readonly (hf.types members _).1 (hf.below _ hlength)

/-- `struct S { int v; }; const S b = {1};` was declared. -/
def stateOfConstant : State where
  heap := ⟨#[#[(Value.int .int 1).withReadonly true],
    #[(Value.fresh (.struct "S" []) (.struct 0)).withReadonly true]]⟩
  scopes := { global := { name := "global", frame := true, entries := [("b", .slot 1)] } }
  structs := [("S", ⟨"S", [⟨"v", .int, false, none⟩]⟩)]

/-- After `S a = b;` the member `a.v` is constant, although it is not declared so. -/
theorem takesValue_asDeclared_constant :
    let s := stateOfConstant
    let members (name : String) : List MemberTy := ((s.struct? name).map StructTy.members).getD []
    let b : Value :=
      { ty := .struct "S" [], data := .struct 0, place := some (.slot 1), readonly := true }
    s.value? "b" = some b ∧ ∃ t a, TakesValue {} s b b t a ∧ t.value? "a" = some a ∧
      a.readonly = false ∧ ¬∀ path ≠ [], t.heap.AsDeclared members a path := by
  intro s members b
  refine ⟨rfl, ?_⟩
  have hends : ends (make (.copy (.struct "S" []) b false)) {} s = true := by decide +kernel
  unfold ends at hends
  split at hends
  · rename_i w u hm
    obtain ⟨copied, hcopy, -⟩ := operate_of_make hm
    obtain ⟨heap, -, rfl⟩ := operate_eq_ok hcopy
    obtain ⟨t, hbind⟩ : ∃ t, bind (.name "a") w {} { s with heap } = .ok () t := ⟨_, rfl⟩
    have ha := (value?_of_defineVariable hbind).2
    have hx : TakesValue {} s b b t _ := .declaration rfl hm hbind ha
    obtain ⟨hr, hiff⟩ := takesValue_asDeclared_iff members (by decide) (by decide) hx
    refine ⟨t, _, hx, ha, hr, fun hall => ?_⟩
    exact absurd ((hiff.mp hall).1 0 _ rfl) (by decide)
  · cases hends

/-- A declaration of a struct variable evaluates its initializer, and the variable takes the value. -/
theorem declareAll_takesValue {spec : TypeSpec} {item : InitDeclarator} {rest : List InitDeclarator}
    {d : Declared} {e : Expr} {flow : Flow} (hauto : spec.isAuto = false)
    (hd : ReadM.declared spec item.declarator (c, s) = .ok d) (hcopy : d.IsCopy name)
    (hopen : d.openBound = false) (hinit : item.init = some (.expr e))
    (h : (declareAll spec (item :: rest)).Completes c s flow t) :
    ∃ v s' w u, (visit e (s.structOf? d.type) .nil).Completes c s v s' ∧
      u.value? name = some w ∧ TakesValue c s' v v u w ∧
      (declareAll spec rest).Completes c u flow t := by
  obtain ⟨tag, ms, hty⟩ := hcopy.type
  have hobject (sig : FunctionTy) : d.type ≠ .function sig := hty ▸ nofun
  obtain ⟨w', u', a, u, hw', hb, h⟩ :=
    declareAll_variable hauto hd hcopy.name hcopy.reference hobject h
  have hvisit : (visit e (s.structOf? d.type) (.one (.convert d.type false))).Completes c s w' u' := by
    unfold initialValue at hw'
    simp only [hopen, hinit, hcopy.readonly, hty] at hw' ⊢
    exact hw'
  obtain ⟨v, s', hv, hmake⟩ := completes_visit_iff.mp hvisit
  have hm : make (.copy d.type v false) c s' = .ok (.done w') u' := by
    obtain ⟨copied, u₁, hcopied, hdone⟩ := completes_bind (x := operate (OperatorM.copy v d.type)) hmake
    obtain ⟨rfl, rfl⟩ := completes_done hdone
    exact bind_ok hcopied
  have hvalue := (value?_of_defineVariable hb).2
  exact ⟨v, s', _, u, hv, hvalue, .declaration hty hm hb hvalue, h⟩

end RunM

/-- `struct S { int v; };`
`int main() { const S b = {1}; S a = b; a.v = 2; return a.v; }` -/
def Program.ofConstantOriginal : Program where
  includes := []
  items :=
    let named (name : String) : Declarator := .mk default [] false (.named name) []
    let literal (n : Nat) : Expr := .literal default (.int n 10 false false)
    let a : Expr := .identifier default "a"
    [.struct default "S" [⟨⟨[], ["int"], default⟩, named "v", none⟩] [],
      .function default (.mk ⟨[], ["int"], default⟩
        (.mk default [] false (.named "main") [.params [] false])
        (.compound default
          [.declaration default ⟨⟨["const"], ["S"], default⟩,
              [⟨named "b", some (.list default [.expr (literal 1)])⟩]⟩,
            .declaration default ⟨⟨[], ["S"], default⟩,
              [⟨named "a", some (.expr (.identifier default "b"))⟩]⟩,
            .expression default (some (.assign default none (.member default a "v" false)
              (literal 2))),
            .returnJump default (some (.member default a "v" false))]))]

namespace Run

/-- The run has ended because a constant was to be written. -/
def refusedConstant (r : Run) : Bool :=
  match r.rest with
  | .ended (.error ⟨.operator (.readonly _), _⟩) => true
  | _ => false

/-- The copy `a` is not constant, but its member is, and the assignment to it is refused. -/
theorem copied_member_refused :
    let run (n : Nat) : Run := (ofProgram {} .ofConstantOriginal {} {}).steps n
    let a (n : Nat) : Option Value := (run n).state.value? "a"
    let member (n : Nat) : Option Value := do (run n).state.heap.part? (← a n) [0]
    (a 10).map Value.readonly = some false ∧ (member 10).map Value.readonly = some true ∧
      (run 14).refusedConstant = true := by
  decide +kernel

end Run

end Stepwise
