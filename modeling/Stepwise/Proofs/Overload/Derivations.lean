import Mathlib.Data.List.Chain
import Stepwise.Proofs.Binding.Shapes

/-! # The grammar of signatures

    type      ::= "const"? base ( "*" )* "&"?
    base      ::= NAME | STRUCT | TEMPLATE | "Return" | function
    function  ::= "FUNCTION" type "(" params ")"
    params    ::= ( type "?"? )* "..."?

A derivation is a tree that spells a sequence of tokens and stands for a shape. What is read from a
sequence is the shape of its only derivation, and there is a shape for each derivation. Ellipses
are read anywhere in a list of parameters, so the trees have them anywhere. The grammar above is
that of the trees in which an ellipsis ends its list, which shows in the tokens: each ellipsis is
followed by a closing parenthesis.
-/

namespace Stepwise

namespace Signature

/-! ## Derivations -/

mutual

/-- A type with the marks around it. -/
inductive TypeTree
  | mk (isConst : Bool) (base : BaseTree) (pointers : Nat) (isReference : Bool)

inductive BaseTree
  | name (text : String)
  | struct (name : String)
  | template (slot : Nat)
  | result
  | function (f : FunctionTree)

/-- A function without the token that begins it. -/
inductive FunctionTree
  | mk (ret : TypeTree) (params : ParamsTree)

inductive ParamsTree
  | nil
  | param (type : TypeTree) (optional : Bool) (rest : ParamsTree)
  | ellipsis (rest : ParamsTree)

end

def optionalIf (optional : Bool) : Signature := if optional then [.optional] else []

mutual

def TypeTree.tokens : TypeTree → Signature
  | .mk isConst base pointers isReference =>
    constIf isConst ++ (base.tokens ++ Shape.marks pointers isReference)

def BaseTree.tokens : BaseTree → Signature
  | .name a => [.name a]
  | .struct a => [.struct a]
  | .template slot => [.template slot]
  | .result => [.result]
  | .function f => .function :: f.tokens

def FunctionTree.tokens : FunctionTree → Signature
  | .mk ret params => ret.tokens ++ .openParen :: (params.tokens ++ [.closeParen])

def ParamsTree.tokens : ParamsTree → Signature
  | .nil => []
  | .param t optional rest => t.tokens ++ (optionalIf optional ++ rest.tokens)
  | .ellipsis rest => .ellipsis :: rest.tokens

end

def ParamsTree.isVariadic : ParamsTree → Bool
  | .nil => false
  | .param _ _ rest => rest.isVariadic
  | .ellipsis _ => true

mutual

/-- The shape that a tree stands for. The mark of a constant is lost where no name comes after it. -/
def TypeTree.shape : TypeTree → Shape
  | .mk isConst base pointers isReference => Shape.under pointers isReference (base.shape isConst)

def BaseTree.shape (readonly : Bool) : BaseTree → Shape
  | .name a => .name a readonly
  | .struct a => .struct a readonly
  | .template slot => .template slot readonly
  | .result => .result
  | .function f => f.shape

def FunctionTree.shape : FunctionTree → Shape
  | .mk ret params => .function ret.shape params.shapes params.isVariadic

def ParamsTree.shapes : ParamsTree → List (Shape × Bool)
  | .nil => []
  | .param t optional rest => (t.shape, optional) :: rest.shapes
  | .ellipsis rest => rest.shapes

end

mutual

/-- An ellipsis stands only at the end of its list. -/
def TypeTree.EllipsesLast : TypeTree → Prop
  | .mk _ base _ _ => base.EllipsesLast

def BaseTree.EllipsesLast : BaseTree → Prop
  | .function f => f.EllipsesLast
  | _ => True

def FunctionTree.EllipsesLast : FunctionTree → Prop
  | .mk ret params => ret.EllipsesLast ∧ params.EllipsesLast

def ParamsTree.EllipsesLast : ParamsTree → Prop
  | .nil => True
  | .param t _ rest => t.EllipsesLast ∧ rest.EllipsesLast
  | .ellipsis rest => rest = .nil

end

/-- The trees of a rule. -/
def Tree : SignatureRule → Type
  | .type => TypeTree
  | .function => FunctionTree

namespace Tree

def tokens : {rule : SignatureRule} → Tree rule → Signature
  | .type, t => TypeTree.tokens t
  | .function, f => .function :: FunctionTree.tokens f

def shape : {rule : SignatureRule} → Tree rule → Shape
  | .type, t => TypeTree.shape t
  | .function, f => FunctionTree.shape f

def EllipsesLast : {rule : SignatureRule} → Tree rule → Prop
  | .type, t => TypeTree.EllipsesLast t
  | .function, f => FunctionTree.EllipsesLast f

end Tree

end Signature

namespace Shape

open Signature

/-! ## Reading the base of a type -/

/-- The base at the beginning of the tokens, and the tokens after it. -/
def base? (readonly : Bool) : Signature → Option (Shape × Signature)
  | .name a :: rest => some (.name a readonly, rest)
  | .struct a :: rest => some (.struct a readonly, rest)
  | .template slot :: rest => some (.template slot readonly, rest)
  | .result :: rest => some (.result, rest)
  | .function :: rest => function? rest
  | _ => none

/-- A type is the mark of a constant, if it begins with one, a base and marks. -/
theorem type?_constIf {c : Bool} {ts : Signature} (h : c = false → ts.head? ≠ some .const) :
    type? (constIf c ++ ts) = (base? c ts).map fun r => marked r.1 r.2 := by
  cases ts with
  | nil => cases c <;> (rw [type?, readType]; rfl)
  | cons t ts =>
    cases t with
    | function => exact type?_function
    | const =>
      cases c with
      | true => exact type?_const_const
      | false => exact absurd rfl (h rfl)
    | _ => cases c <;> (rw [type?, readType]; rfl)

/-- The tokens that begin a type. -/
def opensType : SigToken → Bool
  | .const | .name _ | .struct _ | .template _ | .result | .function => true
  | _ => false

theorem exists_tokens_base (b : BaseTree) :
    ∃ t ts, b.tokens = t :: ts ∧ opensType t = true ∧ t ≠ .const := by
  cases b <;> exact ⟨_, _, rfl, rfl, by simp⟩

theorem exists_tokens_type (t : TypeTree) : ∃ x xs, t.tokens = x :: xs ∧ opensType x = true := by
  obtain ⟨isConst, base, pointers, isReference⟩ := t
  obtain ⟨x, xs, hbase, hx, -⟩ := exists_tokens_base base
  rw [TypeTree.tokens, hbase]
  cases isConst with
  | true => exact ⟨_, _, rfl, rfl⟩
  | false => exact ⟨_, _, rfl, hx⟩

theorem opensType_of_append {t : TypeTree} {more xs : Signature} {x : SigToken}
    (h : t.tokens ++ more = x :: xs) : opensType x = true := by
  obtain ⟨y, ys, ht, hy⟩ := exists_tokens_type t
  rw [ht] at h
  exact (List.cons.inj h).1 ▸ hy

theorem append_ne_nil (t : TypeTree) (more : Signature) : t.tokens ++ more ≠ [] := by
  obtain ⟨y, ys, ht, -⟩ := exists_tokens_type t
  simp [ht]

/-- What comes after a parameter does not go on with it. -/
theorem begins_params (p : ParamsTree) (rest : Signature) (hrest : Begins rest) :
    Begins (p.tokens ++ rest) := by
  cases p with
  | nil => exact hrest
  | ellipsis => trivial
  | param t optional p =>
    obtain ⟨x, xs, ht, hx⟩ := exists_tokens_type t
    rw [ParamsTree.tokens, ht]
    cases x <;> first | (cases hx; done) | trivial

/-- The tokens of a type begin a parameter. -/
theorem params?_type {before : List (Shape × Bool)} {variadic : Bool} (t : TypeTree)
    (more : Signature) : params? before variadic (t.tokens ++ more) =
      (param? (t.tokens ++ more)).bind fun r => params? (r.1 :: before) variadic r.2 := by
  obtain ⟨x, xs, ht, hx⟩ := exists_tokens_type t
  rw [ht, List.cons_append]
  apply params?_param
  · rintro rfl; cases hx
  · rintro rfl; cases hx

/-! ## Every derivation is read -/

mutual

/-- A type is read from the tokens of its tree, up to what is no mark of it. -/
theorem type?_tokens {rest : Signature} (hrest : Ends rest) :
    ∀ t : TypeTree, type? (t.tokens ++ rest) = some (t.shape, rest)
  | .mk isConst base pointers isReference => by
    have hbase := base?_tokens isConst (marks pointers isReference ++ rest) base
    obtain ⟨x, xs, htokens, -, hconst⟩ := exists_tokens_base base
    have hhead : isConst = false →
        (base.tokens ++ (marks pointers isReference ++ rest)).head? ≠ some .const := by
      rw [htokens]
      exact fun _ h => hconst (Option.some.inj h)
    rw [TypeTree.tokens, List.append_assoc, List.append_assoc, type?_constIf hhead, hbase,
      Option.map_some, marked_marks hrest]
    rfl

theorem base?_tokens (readonly : Bool) (rest : Signature) :
    ∀ b : BaseTree, base? readonly (b.tokens ++ rest) = some (b.shape readonly, rest)
  | .name _ | .struct _ | .template _ | .result => rfl
  | .function f => function?_tokens rest f

theorem function?_tokens (rest : Signature) :
    ∀ f : FunctionTree, function? (f.tokens ++ rest) = some (f.shape, rest)
  | .mk ret params => by
    have hends : Ends (.openParen :: (params.tokens ++ .closeParen :: rest)) := trivial
    rw [FunctionTree.tokens, List.append_assoc, List.cons_append, List.append_assoc,
      List.singleton_append, function?_of_type? (type?_tokens hends ret), params?_tokens]
    rfl

/-- Parameters are read after those that have been read before them. -/
theorem params?_tokens (rest : Signature) (before : List (Shape × Bool)) (variadic : Bool) :
    ∀ p : ParamsTree, params? before variadic (p.tokens ++ .closeParen :: rest) =
      some ((before.reverse ++ p.shapes, variadic || p.isVariadic), rest)
  | .nil => by
    rw [ParamsTree.tokens, List.nil_append, params?_closeParen, ParamsTree.shapes, List.append_nil,
      ParamsTree.isVariadic, Bool.or_false]
  | .ellipsis p => by
    rw [ParamsTree.tokens, List.cons_append, params?_ellipsis, params?_tokens, ParamsTree.shapes,
      ParamsTree.isVariadic, Bool.true_or, Bool.or_true]
  | .param t optional p => by
    have hbegins : Begins (p.tokens ++ .closeParen :: rest) := begins_params p _ trivial
    have hparam : param? (t.tokens ++ (optionalIf optional ++ (p.tokens ++ .closeParen :: rest))) =
        some ((t.shape, optional), p.tokens ++ .closeParen :: rest) := by
      rw [param?, optionalIf, type?_tokens (ends_optional hbegins optional) t, Option.map_some,
        skip_optional hbegins]
    rw [ParamsTree.tokens, List.append_assoc, List.append_assoc, params?_type, hparam,
      Option.bind_some, params?_tokens, ParamsTree.shapes, ParamsTree.isVariadic, List.reverse_cons,
      List.append_assoc, List.singleton_append]

end

/-! ## What is read has a derivation -/

theorem exists_pointers (s : Shape) (ts : Signature) :
    ∃ k, ts = List.replicate k .pointer ++ (pointers s ts).2 ∧
      ∀ r, under k r s = under 0 r (pointers s ts).1 := by
  fun_induction pointers s ts with
  | case1 s ts ih =>
    obtain ⟨k, hts, hs⟩ := ih
    exact ⟨k + 1, congrArg (SigToken.pointer :: ·) hts, hs⟩
  | case2 s ts => exact ⟨0, rfl, fun _ => rfl⟩

/-- The marks that are taken off the tokens are those that the shape goes under. -/
theorem exists_marks {s t : Shape} {ts rest : Signature} (h : marked s ts = (t, rest)) :
    ∃ k r, ts = marks k r ++ rest ∧ t = under k r s := by
  obtain ⟨k, hts, hs⟩ := exists_pointers s ts
  unfold marked at h
  split at h
  case h_1 u more hp =>
    cases h
    rw [hp] at hts hs
    exact ⟨k, true, by rw [hts, marks, List.append_assoc]; rfl, (hs true).symm⟩
  case h_2 u more hp =>
    cases h
    rw [hp] at hts hs
    exact ⟨k, false, by rw [hts, marks, List.append_assoc]; rfl, (hs false).symm⟩

/-- A function has its return type before its parameters. -/
theorem exists_openParen {ts : Signature} {r : Shape × Signature} (h : function? ts = some r) :
    ∃ ret more, type? ts = some (ret, .openParen :: more) := by
  rw [function?, readFunction] at h
  rw [type?]
  cases hret : readType ts with
  | none => rw [hret] at h; cases h
  | some read =>
    obtain ⟨ret, after, hlt⟩ := read
    rw [hret] at h
    dsimp only at h
    split at h
    case h_1 more _ => exact ⟨ret, more, rfl⟩
    case h_2 => cases h

theorem exists_skip_optional (ts : Signature) :
    ts = optionalIf (skip .optional ts).1 ++ (skip .optional ts).2 := by
  cases ts with
  | nil => rfl
  | cons t ts =>
    rw [skip]
    split
    case isTrue h => rw [h]; rfl
    case isFalse => rfl

mutual

theorem exists_typeTree {ts rest : Signature} {s : Shape} (h : type? ts = some (s, rest)) :
    ∃ t : TypeTree, ts = t.tokens ++ rest ∧ t.shape = s := by
  obtain ⟨c, ts', hts, hc⟩ : ∃ c ts', ts = constIf c ++ ts' ∧ (c = false → ts'.head? ≠ some .const) := by
    by_cases hhead : ts.head? = some .const
    · obtain ⟨ts', rfl⟩ := List.head?_eq_some_iff.mp hhead
      exact ⟨true, ts', rfl, nofun⟩
    · exact ⟨false, ts, rfl, fun _ => hhead⟩
  rw [hts, type?_constIf hc, Option.map_eq_some_iff] at h
  obtain ⟨⟨base, after⟩, hbase, hmarked⟩ := h
  have hlt : ts'.length ≤ ts.length := by rw [hts, List.length_append]; omega
  obtain ⟨b, hb, rfl⟩ := exists_baseTree hbase
  obtain ⟨k, r, rfl, rfl⟩ := exists_marks hmarked
  exact ⟨.mk c b k r, by simp only [hts, hb, TypeTree.tokens, List.append_assoc], rfl⟩
termination_by 3 * ts.length + 1

theorem exists_baseTree {readonly : Bool} {ts rest : Signature} {s : Shape}
    (h : base? readonly ts = some (s, rest)) :
    ∃ b : BaseTree, ts = b.tokens ++ rest ∧ b.shape readonly = s := by
  unfold base? at h
  split at h
  case h_1 a ts => cases h; exact ⟨.name a, rfl, rfl⟩
  case h_2 a ts => cases h; exact ⟨.struct a, rfl, rfl⟩
  case h_3 slot ts => cases h; exact ⟨.template slot, rfl, rfl⟩
  case h_4 ts => cases h; exact ⟨.result, rfl, rfl⟩
  case h_5 ts =>
    obtain ⟨f, rfl, hf⟩ := exists_functionTree h
    exact ⟨.function f, rfl, hf⟩
  case h_6 => cases h
termination_by 3 * ts.length

theorem exists_functionTree {ts rest : Signature} {s : Shape} (h : function? ts = some (s, rest)) :
    ∃ f : FunctionTree, ts = f.tokens ++ rest ∧ f.shape = s := by
  obtain ⟨ret, more, hret⟩ := exists_openParen h
  obtain ⟨t, hts, rfl⟩ := exists_typeTree hret
  have hlt : more.length < ts.length := by rw [hts, List.length_append, List.length_cons]; omega
  rw [function?_of_type? hret, Option.map_eq_some_iff] at h
  obtain ⟨⟨⟨params, w⟩, after⟩, hparams, h⟩ := h
  cases h
  obtain ⟨p, hmore, rfl, rfl⟩ := exists_paramsTree hparams
  refine ⟨.mk t p, ?_, ?_⟩
  · rw [hts, hmore, FunctionTree.tokens]
    simp only [List.append_assoc, List.cons_append, List.nil_append]
  · rw [FunctionTree.shape, List.reverse_nil, List.nil_append, Bool.false_or]
termination_by 3 * ts.length + 2

theorem exists_paramsTree {ts rest : Signature} {before params : List (Shape × Bool)}
    {variadic w : Bool} (h : params? before variadic ts = some ((params, w), rest)) :
    ∃ p : ParamsTree, ts = p.tokens ++ .closeParen :: rest ∧ params = before.reverse ++ p.shapes ∧
      w = (variadic || p.isVariadic) := by
  cases ts with
  | nil => rw [params?, readParams] at h; cases h
  | cons x xs =>
    by_cases hclose : x = .closeParen
    · subst hclose
      rw [params?_closeParen] at h
      cases h
      exact ⟨.nil, rfl, by simp [ParamsTree.shapes], by simp [ParamsTree.isVariadic]⟩
    by_cases hellipsis : x = .ellipsis
    · subst hellipsis
      rw [params?_ellipsis] at h
      obtain ⟨p, rfl, rfl, rfl⟩ := exists_paramsTree h
      exact ⟨.ellipsis p, rfl, rfl, by simp [ParamsTree.isVariadic]⟩
    rw [params?_param hclose hellipsis, Option.bind_eq_some_iff] at h
    obtain ⟨⟨⟨s, optional⟩, after⟩, hparam, h⟩ := h
    obtain ⟨⟨s', more⟩, htype, hskip⟩ := Option.map_eq_some_iff.mp hparam
    obtain ⟨t, hts, rfl⟩ := exists_typeTree htype
    have hmore := exists_skip_optional more
    cases hskip
    have hlt : (skip .optional more).2.length < (x :: xs).length := by
      have hlength := congrArg List.length hts
      have hle := length_skip_le .optional more
      obtain ⟨y, ys, ht, -⟩ := exists_tokens_type t
      simp only [ht, List.length_append, List.length_cons] at hlength ⊢
      omega
    obtain ⟨p, hp, rfl, rfl⟩ := exists_paramsTree h
    refine ⟨.param t (skip .optional more).1 p, ?_, ?_, rfl⟩
    · rw [hts, ParamsTree.tokens, List.append_assoc, List.append_assoc, ← hp, ← hmore]
    · rw [ParamsTree.shapes, List.reverse_cons, List.append_assoc, List.singleton_append]
termination_by 3 * ts.length + 2

end

theorem type?_of_ofType? {ts : Signature} {s : Shape} (h : ofType? ts = some s) :
    type? ts = some (s, []) := by
  rw [ofType?] at h
  rw [type?]
  cases hr : readType ts with
  | none => rw [hr] at h; cases h
  | some r =>
    obtain ⟨value, rest, hlt⟩ := r
    rw [hr] at h
    cases rest <;> cases h
    rfl

theorem function?_of_ofFunction? {ts : Signature} {s : Shape} (h : ofFunction? ts = some s) :
    ∃ more, ts = .function :: more ∧ function? more = some (s, []) := by
  cases ts with
  | nil => cases h
  | cons t more =>
    cases t with
    | function =>
      refine ⟨more, rfl, ?_⟩
      rw [ofFunction?] at h
      rw [function?]
      cases hr : readFunction more with
      | none => rw [hr] at h; cases h
      | some r =>
        obtain ⟨value, rest, hlt⟩ := r
        rw [hr] at h
        cases rest <;> cases h
        rfl
    | _ => cases h

end Shape

namespace Signature

open Shape

/-! ## Derivations are unique -/

theorem marks_injective {k k' : Nat} {r r' : Bool} (h : marks k r = marks k' r') :
    k = k' ∧ r = r' := by
  have hcount (x : SigToken) := congrArg (List.count x) h
  have hpointer := hcount .pointer
  have hreference := hcount .reference
  constructor
  · cases r <;> cases r' <;> simpa [marks, List.count_replicate] using hpointer
  · cases r <;> cases r' <;> simp [marks, List.count_replicate] at hreference ⊢

theorem optionalIf_append_injective {o o' : Bool} {ts ts' : Signature} (h : Begins ts)
    (h' : Begins ts') (heq : optionalIf o ++ ts = optionalIf o' ++ ts') : o = o' ∧ ts = ts' := by
  have hskip := skip_optional h o
  rw [← optionalIf, heq, optionalIf, skip_optional h' o'] at hskip
  exact ⟨(Prod.mk.inj hskip).1.symm, (Prod.mk.inj hskip).2.symm⟩

theorem constIf_append_injective {c c' : Bool} {b b' : BaseTree} {ts ts' : Signature}
    (h : constIf c ++ (b.tokens ++ ts) = constIf c' ++ (b'.tokens ++ ts')) :
    c = c' ∧ b.tokens ++ ts = b'.tokens ++ ts' := by
  obtain ⟨x, xs, hb, -, hx⟩ := exists_tokens_base b
  obtain ⟨y, ys, hb', -, hy⟩ := exists_tokens_base b'
  rw [hb, hb'] at h ⊢
  cases c <;> cases c'
  · exact ⟨rfl, h⟩
  · exact absurd (List.cons.inj h).1 hx
  · exact absurd (List.cons.inj h).1.symm hy
  · exact ⟨rfl, (List.cons.inj h).2⟩

mutual

theorem TypeTree.tokens_injective : ∀ t u : TypeTree, t.tokens = u.tokens → t = u
  | .mk c b k r, .mk c' b' k' r' => by
    intro h
    obtain ⟨rfl, htokens⟩ := constIf_append_injective h
    have hread := base?_tokens c (marks k r) b
    rw [htokens, base?_tokens] at hread
    obtain ⟨rfl, rfl⟩ := marks_injective (Prod.mk.inj (Option.some.inj hread)).2
    rw [BaseTree.tokens_injective b b' (List.append_cancel_right htokens)]

theorem BaseTree.tokens_injective : ∀ b d : BaseTree, b.tokens = d.tokens → b = d
  | .function f, .function g => fun h => by
    rw [FunctionTree.tokens_injective f g (List.cons.inj h).2]
  | .name _, d | .struct _, d | .template _, d | .result, d => by
    intro h
    cases d <;> cases h
    rfl
  | .function _, .name _ | .function _, .struct _ | .function _, .template _
  | .function _, .result => nofun

theorem FunctionTree.tokens_injective : ∀ f g : FunctionTree, f.tokens = g.tokens → f = g
  | .mk ret p, .mk ret' p' => by
    intro h
    have hends (q : ParamsTree) : Ends (.openParen :: (q.tokens ++ [.closeParen])) := trivial
    have hread := type?_tokens (hends p) ret
    rw [show ret.tokens ++ _ = ret'.tokens ++ _ from h, type?_tokens (hends p')] at hread
    have hparams := (Prod.mk.inj (Option.some.inj hread)).2
    have hret : ret.tokens = ret'.tokens := by
      rw [FunctionTree.tokens, FunctionTree.tokens, hparams] at h
      exact List.append_cancel_right h
    rw [TypeTree.tokens_injective ret ret' hret, ParamsTree.tokens_injective p p'
      (List.append_cancel_right (List.cons.inj hparams).2.symm)]

theorem ParamsTree.tokens_injective : ∀ p q : ParamsTree, p.tokens = q.tokens → p = q
  | .nil, .nil => fun _ => rfl
  | .ellipsis p, .ellipsis q => fun h => by
    rw [ParamsTree.tokens_injective p q (List.cons.inj h).2]
  | .param t o p, .param u o' q => by
    intro h
    have hp (p : ParamsTree) : Begins p.tokens := by simpa using begins_params p [] trivial
    have hread := type?_tokens (ends_optional (hp p) o) t
    rw [← optionalIf, show t.tokens ++ _ = u.tokens ++ _ from h, optionalIf,
      type?_tokens (ends_optional (hp q) o')] at hread
    have hrest := (Prod.mk.inj (Option.some.inj hread)).2
    have htype : t.tokens = u.tokens := by
      rw [ParamsTree.tokens, ParamsTree.tokens, optionalIf, optionalIf, hrest] at h
      exact List.append_cancel_right h
    obtain ⟨rfl, hparams⟩ := optionalIf_append_injective (hp p) (hp q) hrest.symm
    rw [TypeTree.tokens_injective t u htype, ParamsTree.tokens_injective p q hparams]
  | .nil, .ellipsis _ | .ellipsis _, .nil => nofun
  | .param t _ _, .nil => fun h => absurd h (append_ne_nil t _)
  | .nil, .param t _ _ => fun h => absurd h.symm (append_ne_nil t _)
  | .param .., .ellipsis _ => fun h => absurd (opensType_of_append h) (by decide)
  | .ellipsis _, .param .. => fun h => absurd (opensType_of_append h.symm) (by decide)

end

/-! ## Ellipses -/

/-- The token after an ellipsis closes the list. -/
def Closes (x y : SigToken) : Prop := x = .ellipsis → y = .closeParen

/-- The last token is no ellipsis. -/
def Complete (ts : Signature) : Prop := .ellipsis ∉ ts.getLast?

theorem complete_of_notMem {ts : Signature} (h : .ellipsis ∉ ts) : Complete ts :=
  fun hlast => h (List.mem_of_getLast? hlast)

theorem Complete.append {ts us : Signature} (hts : Complete ts) (hus : Complete us) :
    Complete (ts ++ us) := by
  intro h
  rw [List.getLast?_append, Option.mem_def, Option.or_eq_some_iff] at h
  obtain h | ⟨-, h⟩ := h
  · exact hus h
  · exact hts h

theorem isChain_of_notMem {ts : Signature} (h : .ellipsis ∉ ts) : ts.IsChain Closes := by
  induction ts with
  | nil => exact .nil
  | cons x xs ih =>
    rw [List.mem_cons, not_or] at h
    obtain ⟨hx, hxs⟩ := h
    exact List.isChain_cons.mpr ⟨fun _ _ heq => absurd heq.symm hx, ih hxs⟩

theorem isChain_append_iff {ts us : Signature} (h : Complete ts) :
    (ts ++ us).IsChain Closes ↔ ts.IsChain Closes ∧ us.IsChain Closes := by
  rw [List.isChain_append]
  constructor
  · rintro ⟨hts, hus, -⟩
    exact ⟨hts, hus⟩
  · rintro ⟨hts, hus⟩
    refine ⟨hts, hus, fun x hx y _ heq => ?_⟩
    rw [heq] at hx
    exact absurd hx h

theorem isChain_append_of_notMem {ts us : Signature} (h : .ellipsis ∉ ts) :
    (ts ++ us).IsChain Closes ↔ us.IsChain Closes := by
  rw [isChain_append_iff (complete_of_notMem h), and_iff_right (isChain_of_notMem h)]

theorem notMem_constIf (c : Bool) : .ellipsis ∉ constIf c := by cases c <;> simp [constIf]

theorem notMem_optionalIf (o : Bool) : .ellipsis ∉ optionalIf o := by cases o <;> simp [optionalIf]

theorem notMem_marks (k : Nat) (r : Bool) : .ellipsis ∉ marks k r := by cases r <;> simp [marks]

mutual

/-- Ellipses end their lists exactly if each of them is followed by a closing parenthesis. -/
theorem TypeTree.isChain_tokens :
    ∀ t : TypeTree, Complete t.tokens ∧ (t.tokens.IsChain Closes ↔ t.EllipsesLast)
  | .mk c b k r => by
    obtain ⟨hcomplete, hb⟩ := BaseTree.isChain_tokens b
    constructor
    · exact (complete_of_notMem (notMem_constIf c)).append
        (hcomplete.append (complete_of_notMem (notMem_marks k r)))
    · rw [TypeTree.tokens, isChain_append_of_notMem (notMem_constIf c),
        isChain_append_iff hcomplete, hb, and_iff_left (isChain_of_notMem (notMem_marks k r)),
        TypeTree.EllipsesLast]

theorem BaseTree.isChain_tokens :
    ∀ b : BaseTree, Complete b.tokens ∧ (b.tokens.IsChain Closes ↔ b.EllipsesLast)
  | .function f => by
    obtain ⟨hcomplete, hf⟩ := FunctionTree.isChain_tokens f
    have hnone : .ellipsis ∉ [SigToken.function] := by simp
    constructor
    · exact (complete_of_notMem hnone).append hcomplete
    · exact (isChain_append_of_notMem hnone).trans hf
  | .name _ | .struct _ | .template _ | .result =>
    ⟨complete_of_notMem (by simp [BaseTree.tokens]),
      iff_of_true (isChain_of_notMem (by simp [BaseTree.tokens])) trivial⟩

theorem FunctionTree.isChain_tokens :
    ∀ f : FunctionTree, Complete f.tokens ∧ (f.tokens.IsChain Closes ↔ f.EllipsesLast)
  | .mk ret p => by
    obtain ⟨hret, hchain⟩ := TypeTree.isChain_tokens ret
    have hnone : .ellipsis ∉ [SigToken.openParen] := by simp
    have hclose : Complete (p.tokens ++ [.closeParen]) := by simp [Complete]
    constructor
    · exact hret.append ((complete_of_notMem hnone).append hclose)
    · rw [FunctionTree.tokens, isChain_append_iff hret, hchain, FunctionTree.EllipsesLast,
        ← ParamsTree.isChain_tokens p]
      exact and_congr_right' (isChain_append_of_notMem hnone)

theorem ParamsTree.isChain_tokens :
    ∀ p : ParamsTree, List.IsChain Closes (p.tokens ++ [.closeParen]) ↔ p.EllipsesLast
  | .nil => iff_of_true (isChain_of_notMem (by simp [ParamsTree.tokens])) trivial
  | .param t o p => by
    obtain ⟨hcomplete, ht⟩ := TypeTree.isChain_tokens t
    rw [ParamsTree.tokens, List.append_assoc, List.append_assoc, isChain_append_iff hcomplete, ht,
      isChain_append_of_notMem (notMem_optionalIf o), ParamsTree.isChain_tokens p,
      ParamsTree.EllipsesLast]
  | .ellipsis p => by
    rw [ParamsTree.tokens, List.cons_append, List.isChain_cons, ParamsTree.EllipsesLast]
    constructor
    · rintro ⟨hhead, -⟩
      cases p with
      | nil => rfl
      | ellipsis p => exact nomatch hhead .ellipsis rfl rfl
      | param t o p =>
        obtain ⟨x, xs, ht, hx⟩ := exists_tokens_type t
        have hclose := hhead x (by simp [ParamsTree.tokens, ht]) rfl
        rw [hclose] at hx
        cases hx
    · rintro rfl
      exact ⟨fun _ h _ => (Option.some.inj h).symm, isChain_of_notMem (by simp [ParamsTree.tokens])⟩

end

namespace Tree

variable {rule : SignatureRule}

theorem tokens_injective {t u : Tree rule} (h : t.tokens = u.tokens) : t = u := by
  cases rule with
  | type => exact TypeTree.tokens_injective t u h
  | function => exact FunctionTree.tokens_injective t u (List.cons.inj h).2

theorem isChain_tokens (t : Tree rule) : t.tokens.IsChain Closes ↔ t.EllipsesLast := by
  cases rule with
  | type => exact (TypeTree.isChain_tokens t).2
  | function => exact (BaseTree.isChain_tokens (.function t)).2

/-- A whole sequence is read as the shape of its derivation. -/
theorem ofSignature?_tokens (t : Tree rule) : ofSignature? rule t.tokens = some t.shape := by
  cases rule with
  | type =>
    have h := @type?_tokens [] trivial t
    rw [List.append_nil] at h
    exact ofType?_of_type? (o := some t.shape) h
  | function =>
    have h := function?_tokens [] t
    rw [List.append_nil] at h
    exact ofFunction?_of_function? (o := some t.shape) h

theorem exists_of_ofSignature? {ts : Signature} {s : Shape} (h : ofSignature? rule ts = some s) :
    ∃ t : Tree rule, t.tokens = ts ∧ t.shape = s := by
  cases rule with
  | type =>
    obtain ⟨t, hts, hs⟩ := exists_typeTree (type?_of_ofType? h)
    exact ⟨t, (hts.trans (List.append_nil _)).symm, hs⟩
  | function =>
    obtain ⟨more, rfl, hmore⟩ := function?_of_ofFunction? h
    obtain ⟨f, htokens, hs⟩ := exists_functionTree hmore
    exact ⟨f, congrArg _ (htokens.trans (List.append_nil _)).symm, hs⟩

end Tree

/-- What the reader of signatures accepts under a rule are the sequences that are derived from it,
with ellipses anywhere in a list of parameters, and what it answers is the shape of the only
derivation. The sequences in which each ellipsis is followed by the end of its list are those of
the grammar that has an ellipsis after the last parameter only. -/
theorem read_iff_derived (rule : SignatureRule) (ts : Signature) (s : Shape) :
    (ofSignature? rule ts = some s ↔
      ∃ t : Tree rule, (∀ u : Tree rule, u.tokens = ts ↔ u = t) ∧ t.shape = s) ∧
    (ofSignature? rule ts = some s ∧ ts.IsChain Closes ↔
      ∃ t : Tree rule, (∀ u : Tree rule, u.tokens = ts ↔ u = t) ∧ t.EllipsesLast ∧ t.shape = s) := by
  have hread : ofSignature? rule ts = some s ↔
      ∃ t : Tree rule, (∀ u : Tree rule, u.tokens = ts ↔ u = t) ∧ t.shape = s := by
    constructor
    · intro h
      obtain ⟨t, rfl, hs⟩ := Tree.exists_of_ofSignature? h
      exact ⟨t, fun u => ⟨Tree.tokens_injective, fun hu => hu ▸ rfl⟩, hs⟩
    · rintro ⟨t, ht, rfl⟩
      rw [← (ht t).mpr rfl]
      exact t.ofSignature?_tokens
  refine ⟨hread, ?_⟩
  rw [hread]
  constructor
  · rintro ⟨⟨t, ht, hs⟩, hchain⟩
    rw [← (ht t).mpr rfl, t.isChain_tokens] at hchain
    exact ⟨t, ht, hchain, hs⟩
  · rintro ⟨t, ht, hlast, hs⟩
    refine ⟨⟨t, ht, hs⟩, ?_⟩
    rw [← (ht t).mpr rfl]
    exact t.isChain_tokens.mpr hlast

/-- An ellipsis before a parameter is read, though no derivation of the grammar has one there. -/
theorem read_ellipsis_first :
    let ts : Signature :=
      [.function, .result, .openParen, .ellipsis, .name "int", .closeParen]
    ofSignature? .function ts = some (.function .result [(.name "int" false, false)] true) ∧
      ¬∃ t : Tree .function, t.tokens = ts ∧ t.EllipsesLast := by
  let int : TypeTree := .mk false (.name "int") 0 false
  let f : Tree .function := FunctionTree.mk (.mk false .result 0 false) (.ellipsis (.param int false .nil))
  refine ⟨f.ofSignature?_tokens, ?_⟩
  rintro ⟨t, ht, hlast⟩
  rw [← t.isChain_tokens, ht] at hlast
  have hclose : Closes .ellipsis (.name "int") := by
    simp only [List.isChain_cons_cons] at hlast
    exact hlast.2.2.2.1
  cases hclose rfl

end Signature

end Stepwise
