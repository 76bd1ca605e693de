import Stepwise.Proofs.Phrases.Growing
import Stepwise.Syntax.Tree

/-! # Where nodes lie

Statements and expressions are the nodes of a tree. The parts of a node are the nodes right below
it; what stands in a declarator, a parameter or an initializer is a part of the node around it.

Nodes that a parse gives lie one after the other among the tokens, and the parts of each lie among
its own tokens. What a routine is given and what it gives is laid out like this; one step of a
routine keeps it so.
-/

namespace Stepwise

/-- A node with all that is below it. -/
inductive Subtree
  | expr (e : Expr)
  | stmt (s : Stmt)

mutual

def Initializer.parts : Initializer → List Subtree
  | .expr e => [.expr e]
  | .list _ items => Initializer.partsAll items

def Initializer.partsAll : List Initializer → List Subtree
  | [] => []
  | i :: is => i.parts ++ Initializer.partsAll is

end

mutual

/-- The sizes and default arguments in a declarator. -/
def Declarator.parts : Declarator → List Subtree
  | .mk _ _ _ base suffixes => base.parts ++ DeclaratorSuffix.partsAll suffixes

def DeclaratorBase.parts : DeclaratorBase → List Subtree
  | .nested inner => inner.parts
  | .named _ | .anonymous => []

def DeclaratorSuffix.parts : DeclaratorSuffix → List Subtree
  | .array size => size.toList.map .expr
  | .params params _ => Param.partsAll params

def DeclaratorSuffix.partsAll : List DeclaratorSuffix → List Subtree
  | [] => []
  | s :: ss => s.parts ++ DeclaratorSuffix.partsAll ss

def Param.parts : Param → List Subtree
  | .mk _ _ d value => d.parts ++ value.toList.map .expr

def Param.partsAll : List Param → List Subtree
  | [] => []
  | p :: ps => p.parts ++ Param.partsAll ps

end

theorem Initializer.parts_list (span : Span) (items : List Initializer) :
    (Initializer.list span items).parts = items.flatMap Initializer.parts := by
  rw [Initializer.parts]
  induction items with
  | nil => rfl
  | cons i is ih => rw [Initializer.partsAll, ih, List.flatMap_cons]

theorem Declarator.parts_mk (span : Span) (pointers : List Bool) (reference : Bool)
    (base : DeclaratorBase) (suffixes : List DeclaratorSuffix) :
    (Declarator.mk span pointers reference base suffixes).parts =
      base.parts ++ suffixes.flatMap DeclaratorSuffix.parts := by
  rw [Declarator.parts, List.append_cancel_left_eq]
  induction suffixes with
  | nil => rfl
  | cons s ss ih => rw [DeclaratorSuffix.partsAll, ih, List.flatMap_cons]

theorem DeclaratorSuffix.parts_params (params : List Param) (variadic : Bool) :
    (DeclaratorSuffix.params params variadic).parts = params.flatMap Param.parts := by
  rw [DeclaratorSuffix.parts]
  induction params with
  | nil => rfl
  | cons p ps ih => rw [Param.partsAll, ih, List.flatMap_cons]

/-- The operands of an expression, with the sizes in the type that it names. -/
def Expr.parts : Expr → List Subtree
  | .literal .. | .identifier .. | .qualified .. => []
  | .binary _ _ left right | .logical _ _ left right | .comma _ left right
  | .assign _ _ left right | .index _ left right => [.expr left, .expr right]
  | .unary _ _ operand | .sizeofExpr _ operand | .member _ operand _ _ => [.expr operand]
  | .conditional _ condition thenExpr elseExpr => [.expr condition, .expr thenExpr, .expr elseExpr]
  | .call _ callee args => .expr callee :: args.map .expr
  | .cast _ _ target operand => target.parts ++ [.expr operand]
  | .sizeofType _ _ target => target.parts
  | .list _ items => items.flatMap Initializer.parts

def InitDeclarator.parts (d : InitDeclarator) : List Subtree :=
  d.declarator.parts ++ d.init.toList.flatMap Initializer.parts

def MemberDecl.parts (m : MemberDecl) : List Subtree :=
  m.declarator.parts ++ m.default.toList.flatMap Initializer.parts

def FunctionDef.parts (f : FunctionDef) : List Subtree := f.declarator.parts ++ [.stmt f.body]

/-- The lists of siblings below a statement. A struct has two, for its members and its methods,
which may stand in any order among each other. -/
def Stmt.groups : Stmt → List (List Subtree)
  | .declaration _ decl | .typedef _ decl => [decl.declarators.flatMap InitDeclarator.parts]
  | .function _ definition => [definition.parts]
  | .struct _ _ members methods =>
    [members.flatMap MemberDecl.parts, methods.flatMap FunctionDef.parts]
  | .compound _ body => [body.map .stmt]
  | .expression _ value | .returnJump _ value => [value.toList.map .expr]
  | .ifThen _ condition thenBranch elseBranch =>
    [.expr condition :: .stmt thenBranch :: elseBranch.toList.map .stmt]
  | .switch _ condition body | .whileLoop _ condition body => [[.expr condition, .stmt body]]
  | .caseLabel _ value => [[.expr value]]
  | .doWhile _ body condition => [[.stmt body, .expr condition]]
  | .forLoop _ init condition step body =>
    [init.toList.map .stmt ++ (condition.toList.map .expr ++
      (step.toList.map .expr ++ [.stmt body]))]
  | .forEach _ _ d range body => [d.parts ++ [.expr range, .stmt body]]
  | .usingDirective .. | .usingDeclaration .. | .namespaceDef .. | .namespaceAlias ..
  | .defaultLabel _ | .label .. | .breakJump _ | .continueJump _ | .gotoJump .. => [[]]

namespace Subtree

def span : Subtree → Span
  | expr e => e.span
  | stmt s => s.span

def node : Subtree → Node
  | expr e => e.node
  | stmt s => s.node

/-- The lists of siblings below a node. -/
def groups : Subtree → List (List Subtree)
  | expr e => [e.parts]
  | stmt s => s.groups

/-- The node ends before the other one begins. -/
def Before (m n : Subtree) : Prop := m.span.stop ≤ n.span.start

/-- The node is not empty, its parts lie in it and do not overlap, and siblings are in order. -/
structure Nests (n : Subtree) : Prop where
  nonempty : n.span.start < n.span.stop
  inside : ∀ m ∈ n.groups.flatten, n.span.start ≤ m.span.start ∧ m.span.stop ≤ n.span.stop
  ordered : ∀ g ∈ n.groups, g.Pairwise Before
  apart : n.groups.flatten.Pairwise fun m m' => m.Before m' ∨ m'.Before m

end Subtree

/-- The nodes of a program: its items, and the parts of its nodes. -/
inductive Program.Contains (p : Program) : Subtree → Prop
  | item {s : Stmt} : s ∈ p.items → Contains p (.stmt s)
  | part {n m : Subtree} : Contains p n → m ∈ n.groups.flatten → Contains p m

/-- All siblings of a node, each list of them in its order. -/
structure Subtree.Arranges (n : Subtree) (ns : List Subtree) : Prop where
  perm : ns.Perm n.groups.flatten
  sublist : ∀ g ∈ n.groups, g.Sublist ns

theorem Subtree.arranges_of_groups {n : Subtree} {ns : List Subtree} (h : n.groups = [ns]) :
    n.Arranges ns where
  perm := by rw [h, List.flatten_singleton]
  sublist g hg := by
    rw [h, List.mem_singleton] at hg
    rw [hg]

namespace Parse

open Tokens

variable {root : Call}

/-- A call that comes of the call `root` reads from the stream. -/
def Known (root : Call) (s : Tokens) : Prop :=
  ∃ c, Relation.ReflTransGen Call.Makes root c ∧ c.stream = s

/-- The nodes lie one after the other, from where `a` tokens are left to where `b` are left. A node
has the tokens from a stream `s`, from which a call reads, up to a stream `t`; its parts lie between
these, and an expression is what parsing these tokens gives. -/
inductive Laid (root : Call) : Nat → List Subtree → Nat → Prop
  | nil {a b : Nat} (h : b ≤ a) : Laid root a [] b
  | cons {a b : Nat} {n : Subtree} {ns parts : List Subtree} {s t : Tokens}
    (hle : s.rest.length ≤ a) (hknown : Known root s) (hreaches : s.Reaches t)
    (hshorter : t.Shorter s) (hspan : n.span = s.spanTo t)
    (hexpr : ∀ e, n = .expr e → Reparses s e t) (harranges : n.Arranges parts)
    (hparts : Laid root s.rest.length parts t.rest.length)
    (hrest : Laid root t.rest.length ns b) : Laid root a (n :: ns) b

namespace Laid

variable {a b c : Nat} {ns ms : List Subtree} {s t u : Tokens}

theorem le (h : Laid root a ns b) : b ≤ a := by
  induction h with
  | nil h => exact h
  | cons hle _ _ hshorter _ _ _ _ _ _ ih =>
    exact ih.trans ((Nat.le_of_lt hshorter).trans hle)

theorem mono_left (h : Laid root a ns b) (hc : a ≤ c) : Laid root c ns b := by
  cases h with
  | nil h => exact .nil (h.trans hc)
  | cons hle hknown hreaches hshorter hspan hexpr harranges hparts hrest =>
    exact .cons (hle.trans hc) hknown hreaches hshorter hspan hexpr harranges hparts hrest

theorem append (h : Laid root a ns b) (h' : Laid root b ms c) : Laid root a (ns ++ ms) c := by
  induction h with
  | nil h => exact h'.mono_left h
  | cons hle hknown hreaches hshorter hspan hexpr harranges hparts _ _ ih =>
    exact .cons hle hknown hreaches hshorter hspan hexpr harranges hparts (ih h')

theorem mono_right (h : Laid root a ns b) (hc : c ≤ b) : Laid root a ns c := by
  have happend := h.append (.nil hc)
  rwa [List.append_nil] at happend

theorem empty (h : t.Shorter s) : Laid root s.rest.length [] t.rest.length := .nil (Nat.le_of_lt h)

theorem node {n : Subtree} {parts : List Subtree} (hknown : Known root s) (hreaches : s.Reaches t)
    (hshorter : t.Shorter s) (hspan : n.span = s.spanTo t)
    (hexpr : ∀ e, n = .expr e → Reparses s e t) (harranges : n.Arranges parts)
    (hparts : Laid root s.rest.length parts t.rest.length) :
    Laid root s.rest.length [n] t.rest.length :=
  .cons (Nat.le_refl _) hknown hreaches hshorter hspan hexpr harranges hparts
    (.nil (Nat.le_refl _))

theorem expr {e : Expr} (hknown : Known root s) (hreaches : s.Reaches t) (hshorter : t.Shorter s)
    (hspan : e.span = s.spanTo t) (hreparses : Reparses s e t)
    (hparts : Laid root s.rest.length e.parts t.rest.length) :
    Laid root s.rest.length [.expr e] t.rest.length :=
  node hknown hreaches hshorter hspan (by rintro _ ⟨⟩; exact hreparses)
    (Subtree.arranges_of_groups rfl) hparts

theorem answer {v : Parsed s Expr} (hknown : Known root s) (hreparses : Reparses s v.value v.next)
    (hreaches : s.Reaches v.next) (hspan : v.value.span = s.spanTo v.next)
    (hparts : Laid root s.rest.length v.value.parts v.next.rest.length) :
    Laid root s.rest.length [.expr v.value] v.next.rest.length :=
  expr hknown hreaches v.shorter hspan hreparses hparts

theorem stmt {x : Stmt} {parts : List Subtree} (hknown : Known root s) (hreaches : s.Reaches t)
    (hshorter : t.Shorter s) (hspan : x.span = s.spanTo t) (hgroups : x.groups = [parts])
    (hparts : Laid root s.rest.length parts t.rest.length) :
    Laid root s.rest.length [.stmt x] t.rest.length :=
  node hknown hreaches hshorter hspan nofun (Subtree.arranges_of_groups hgroups) hparts

end Laid

/-- What a routine that goes on with a phrase has to know of its beginning. -/
structure Begins (root : Call) (s₀ s : Tokens) : Prop where
  known : Known root s₀
  reaches : s₀.Reaches s

/-- The expression that a loop lets grow. -/
structure Grows (root : Call) (r : Routine) (grow : Loop) (s₀ : Tokens) (e : Expr) (s : Tokens) :
    Prop extends Begins root s₀ s where
  passes : Passes r grow s₀ e s
  laid : Laid root s₀.rest.length [.expr e] s.rest.length

/-- Another round of the loop. -/
theorem Grows.step {r : Routine} {grow : Loop} {s₀ s u : Tokens} {e d : Expr}
    {parts : List Subtree} (h : Grows root r grow s₀ e s) (hpasses : Passes r grow s₀ d u)
    (hreparses : Reparses s₀ d u) (hreaches : s.Reaches u) (hshorter : u.Shorter s₀)
    (hspan : d.span = s₀.spanTo u) (hd : d.parts = .expr e :: parts)
    (hparts : Laid root s.rest.length parts u.rest.length) : Grows root r grow s₀ d u where
  known := h.known
  reaches := h.reaches.trans hreaches
  passes := hpasses
  laid := .expr h.known (h.reaches.trans hreaches) hshorter hspan hreparses
    (hd ▸ h.laid.append hparts)

/-- What has to be laid out when a routine is called. -/
def Ready (root : Call) : Call → Prop
  | .commaTail s₀ left s _ => Grows root expression commaTail s₀ left s
  | .disjunctionTail s₀ left s _ => Grows root disjunction disjunctionTail s₀ left s
  | .conjunctionTail s₀ left s _ => Grows root conjunction conjunctionTail s₀ left s
  | .binaryTail least s₀ left s _ =>
    Grows root (binary least) (binaryTail least) s₀ left s
  | .trailingTail s₀ e s _ => Grows root unary trailingTail s₀ e s
  | .trailing s | .primary s => Falls s
  | .argumentsTail s₀ args s _ =>
    Laid root s₀.rest.length (args.reverse.map .expr) s.rest.length
  | .braceTail s₀ items s _ =>
    Laid root s₀.rest.length (items.reverse.flatMap Initializer.parts) s.rest.length
  | .suffixesTail _ start _ _ base suffixes s _ =>
    Laid root start.rest.length (base.parts ++ suffixes.reverse.flatMap DeclaratorSuffix.parts)
      s.rest.length
  | .paramsTail s₀ params s _ =>
    Laid root s₀.rest.length (params.reverse.flatMap Param.parts) s.rest.length
  | .initDeclarators s₀ earlier d s _ =>
    Laid root s₀.rest.length (earlier.reverse.flatMap InitDeclarator.parts ++ d.parts)
      s.rest.length
  | .moreDeclarators s₀ earlier s _ =>
    Laid root s₀.rest.length (earlier.reverse.flatMap InitDeclarator.parts) s.rest.length
  | .blockTail s₀ body s _ => Laid root s₀.rest.length (body.reverse.map .stmt) s.rest.length
  | .typedefTail s₀ s _ | .usingTail s₀ s _ | .forHead s₀ s _ => Begins root s₀ s
  | .forClauses s₀ init s _ =>
    Begins root s₀ s ∧ Laid root s₀.rest.length (init.toList.map .stmt) s.rest.length
  | .structTail s₀ name members methods s _ =>
    Begins root s₀ s ∧ ∃ parts, (∀ span, (Subtree.stmt
      (.struct span name members.reverse methods.reverse)).Arranges parts) ∧
      Laid root s₀.rest.length parts s.rest.length
  | _ => True

/-- What is laid out by the answer of a routine. -/
def Lays (root : Call) : (c : Call) → c.Value → Prop
  | .expression s, v | .assignment s, v | .conditional s, v | .disjunction s, v | .conjunction s, v
  | .binary _ s, v | .unary s, v | .trailing s, v | .primary s, v =>
    Laid root s.rest.length [.expr v.value] v.next.rest.length
  | .commaTail s₀ .., v | .disjunctionTail s₀ .., v | .conjunctionTail s₀ .., v
  | .binaryTail _ s₀ .., v | .trailingTail s₀ .., v =>
    Laid root s₀.rest.length [.expr v.value] v.next.rest.length
  | .argumentsTail s₀ .., v => Laid root s₀.rest.length (v.value.map .expr) v.next.rest.length
  | .initializer s, v => Laid root s.rest.length v.value.parts v.next.rest.length
  | .braceList s, v | .braceTail s .., v =>
    Laid root s.rest.length (v.value.1.flatMap Initializer.parts) v.next.rest.length ∧
      v.value.2 = s.spanTo v.next
  | .typeName s, v => Laid root s.rest.length v.value.2.parts v.next.rest.length
  | .declarator _ _ s _, v | .suffixesTail _ s .., v =>
    Laid root s.rest.length v.value.parts v.next.rest.length
  | .paramsTail s₀ .., v =>
    Laid root s₀.rest.length (v.value.1.flatMap Param.parts) v.next.rest.length
  | .defaultArgument _ s _, v | .optionalBefore _ _ s, v =>
    Laid root s.rest.length (v.value.toList.map .expr) v.next.rest.length
  | .initDeclarators s₀ .., v | .moreDeclarators s₀ .., v =>
    Laid root s₀.rest.length (v.value.flatMap InitDeclarator.parts) v.next.rest.length
  | .blockTail s₀ .., v => Laid root s₀.rest.length (v.value.map .stmt) v.next.rest.length
  | .typedefTail s .., v | .usingTail s .., v | .compound s, v | .statement s, v | .forHead s .., v
  | .forClauses s .., v | .external s, v | .structTail s .., v =>
    Laid root s.rest.length [.stmt v.value] v.next.rest.length
  | .program s, v => Laid root s.rest.length (v.map .stmt) 0
  | _, _ => True

/-- A call gives what it should if it is called as it should be. -/
structure Answers (root c : Call) (v : c.Value) : Prop where
  answer : c.answer = .ok v
  known : Known root c.stream
  lays : Ready root c → Lays root c v

namespace Script

variable {α β : Type} {s t : Tokens}

/-- What the script gives has the property, if its calls give what they should. -/
def Ensures (root : Call) (p : Script α) (Q : α → Prop) : Prop :=
  ∀ a n, p.Gives (Answers root) a n → Q a

namespace Ensures

variable {p : Script α} {Q : α → Prop}

theorem done {a : α} (h : Q a) : Ensures root (pure a) Q := by
  rintro _ _ ⟨rfl, -⟩
  exact h

theorem bind {f : β → Script α} {p : Script β} (h : Ensures root p fun b => Ensures root (f b) Q) :
    Ensures root (p >>= f) Q := by
  intro a n ha
  obtain ⟨b, m, j, hb, ha, -⟩ := gives_bind.mp ha
  exact h b m hb a j ha

theorem since {h : t.Shorter s} {p : Script (Parsed t α)} {Q : Parsed s α → Prop}
    (hp : Ensures root p fun a => Q (Parsed.since h a)) : Ensures root (since h p) Q :=
  bind (p := p) fun a n ha => done (hp a n ha)

theorem takeTo {Q : Unit → Prop} (h : Q ()) : Ensures root (takeTo s t) Q := fun _ _ _ => h

theorem offer {o : Option (Parsed s α)} {Q : Option (Parsed s α) → Prop}
    (hnone : o = none → Q none) (hsome : ∀ a t h, o = some ⟨a, t, h⟩ → Q (some ⟨a, t, h⟩)) :
    Ensures root (offer o) Q := by
  cases o with
  | none => exact done (hnone rfl)
  | some p => exact bind (takeTo (done (hsome p.value p.next p.shorter rfl)))

theorem demand {x : Attempt (Parsed s α)} {Q : Parsed s α → Prop}
    (h : ∀ a t h, x = .ok ⟨a, t, h⟩ → Q ⟨a, t, h⟩) : Ensures root (demand x) Q := by
  cases x with
  | error e => exact fun _ _ h => h.elim
  | ok p => exact bind (takeTo (done (h p.value p.next p.shorter rfl)))

theorem ask_known {c : Call} (hready : Ready root c) {Q : c.Value → Prop}
    (h : ∀ v, c.answer = .ok v → Known root c.stream → Lays root c v → Q v) :
    Ensures root (ask c) Q := by
  rintro v _ ⟨_, _, hv, ⟨rfl, -⟩, -⟩
  exact h v hv.answer hv.known (hv.lays hready)

theorem ask {c : Call} (hready : Ready root c) {Q : c.Value → Prop}
    (h : ∀ v, c.answer = .ok v → Lays root c v → Q v) : Ensures root (Script.ask c) Q :=
  ask_known hready fun v hv _ => h v hv

theorem fail {e : ParseError} : Ensures root (.fail e : Script α) Q := fun _ _ h => h.elim

theorem ite {b : Prop} [Decidable b] {q : Script α} (hp : b → Ensures root p Q)
    (hq : ¬b → Ensures root q Q) : Ensures root (if b then p else q) Q := by
  split
  · exact hp ‹_›
  · exact hq ‹_›

end Ensures

end Script

/-- What a call gives lies as it should, if this is so of the calls that it makes. -/
def Keeps (root c : Call) : Prop :=
  Script.Ensures root c.script fun v => c.answer = .ok v → Lays root c v

theorem reaches_of_ok {s : Tokens} {α : Type} {x : Attempt (Parsed s α)}
    (hx : s.Leaves x.toOption) {p : Parsed s α} (h : x = .ok p) : s.Reaches p.next :=
  hx p (by rw [h]; rfl)

theorem Call.reaches {c : Call} {v : c.Value} (hv : c.answer = .ok v) :
    c.stream.Reaches (c.next v) :=
  c.settles.reaches hv

end Parse

end Stepwise
