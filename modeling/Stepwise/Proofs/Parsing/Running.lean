import Stepwise.Proofs.Parsing.Calls
import Stepwise.Proofs.Syntax.Grammar

/-! # Running the scripts

Where each call that a script makes is answered as the routine that is called answers it, the
script gives what its routine gives.
-/

namespace Stepwise

theorem Tokens.take?_congr {s : Tokens} {α : Type} {f g : Lexeme → Option α}
    (h : ∀ l, f l = g l) : s.take? f = s.take? g := by
  rw [funext h]

theorem Attempt.bind_ok {α : Type} (a : Attempt α) : (a >>= fun v => Except.ok v) = a := by
  cases a <;> rfl

namespace Parse

open Script

namespace Script

variable {α β : Type}

@[simp] theorem run_done (a : α) : (done a : Script α).run = .ok a := rfl

@[simp] theorem run_pure (a : α) : (pure a : Script α).run = .ok a := rfl

@[simp] theorem run_call (c : Call) (k : c.Value → Script α) :
    (call c k).run = c.answer >>= fun v => (k v).run := rfl

@[simp] theorem run_bind (p : Script α) (f : α → Script β) :
    (p >>= f).run = p.run >>= fun a => (f a).run := by
  induction p with
  | done a => rfl
  | fail e => rfl
  | take ts p ih => exact ih
  | call c k ih =>
    change (c.answer.bind fun v => ((k v).bind f).run) = (c.answer.bind fun v => (k v).run).bind _
    cases c.answer with
    | error e => rfl
    | ok v => exact ih v

@[simp] theorem run_takeTo (s t : Tokens) : (takeTo s t).run = .ok () := rfl

@[simp] theorem run_offer {s : Tokens} (o : Option (Parsed s α)) : (offer o).run = .ok o := by
  cases o <;> rfl

@[simp] theorem run_demand {s : Tokens} (a : Attempt (Parsed s α)) : (demand a).run = a := by
  cases a <;> rfl

@[simp] theorem run_since {s t : Tokens} (h : t.Shorter s) (p : Script (Parsed t α)) :
    (since h p).run = since h p.run := by
  change (p >>= fun a => pure (Parsed.since h a)).run = _
  rw [run_bind]
  cases p.run <;> rfl

end Script

namespace Call

attribute [local simp] script ask answer since_ok since_some since_none Attempt.ok_bind
  Attempt.bind_ok

theorem run_assignment (s : Tokens) : (assignment s).script.run = Parse.assignment s := by
  rw [Parse.assignment, script]
  simp only [ask, answer, run_bind, run_call, run_done, run_offer, Attempt.ok_bind, Attempt.bind_ok]
  refine bind_congr fun p => ?_
  cases p.next.take? fun l => l.symbol?.bind BinaryOp.ofAssignment? with
  | none => simp
  | some q => cases hbrace : q.next.sees .leftBrace <;> simp [hbrace]

theorem run_unary (s : Tokens) : (unary s).script.run = Parse.unary s := by
  rw [Parse.unary, script]
  simp only [run_bind, run_offer, Attempt.ok_bind]
  cases s.take? fun l => l.symbol?.bind UnaryOp.ofLeadingSymbol? with
  | some p => simp
  | none =>
    simp only [run_bind, run_offer, Attempt.ok_bind]
    cases (if s.parenStartsType then s.accept? .leftParen else none) with
    | some p => simp
    | none =>
      simp only [run_bind, run_offer, Attempt.ok_bind]
      cases s.acceptKeyword? .sizeofWord with
      | none => simp
      | some p =>
        simp only [run_bind, run_offer, Attempt.ok_bind]
        cases (if p.next.parenStartsType then p.next.accept? .leftParen else none) <;> simp

theorem run_trailingTail (s₀ : Tokens) (e : Expr) (s : Tokens) (h : s.Shorter s₀) :
    (trailingTail s₀ e s h).script.run = Parse.trailingTail s₀ e s h := by
  rw [Parse.trailingTail, script]
  simp only [run_bind, run_offer, Attempt.ok_bind]
  cases s.accept? .leftBracket with
  | some p => simp
  | none =>
    simp only [run_bind, run_offer, Attempt.ok_bind]
    cases s.accept? .leftParen with
    | some p => simp
    | none =>
      simp only [run_bind, run_offer, Attempt.ok_bind]
      cases s.take? fun l => if l.isSymbol .dot then some false
          else if l.isSymbol .arrow then some true else none with
      | some p => simp
      | none =>
        simp only [run_bind, run_offer, Attempt.ok_bind]
        cases s.take? fun l => l.symbol?.bind UnaryOp.ofTrailingSymbol? <;> simp

theorem run_argumentsTail (s₀ : Tokens) (args : List Expr) (s : Tokens) (h : s.Shorter s₀) :
    (argumentsTail s₀ args s h).script.run = Parse.argumentsTail s₀ args s h := by
  rw [Parse.argumentsTail, script]
  cases hparen : s.sees .rightParen with
  | true => simp
  | false =>
    simp only [ask, answer, run_bind, run_call, run_done, run_offer, Attempt.ok_bind,
      Attempt.bind_ok, Bool.false_eq_true, reduceIte]
    refine bind_congr fun p => ?_
    cases p.next.accept? .comma <;> simp

theorem run_primary (s : Tokens) : (primary s).script.run = Parse.primary s := by
  rw [Parse.primary, Tokens.literal?, script]
  simp only [run_bind, run_offer, Attempt.ok_bind]
  cases s.take? Lexeme.literal? with
  | some p => simp
  | none =>
    simp only [run_bind, run_offer, Attempt.ok_bind]
    cases s.take? Lexeme.string? with
    | some p => simp
    | none =>
      cases hname : s.peek.isIdentifier with
      | true =>
        simp only [ask, answer, run_bind, run_call, run_done, Attempt.bind_ok, reduceIte]
        refine bind_congr fun p => ?_
        obtain ⟨_ | ⟨part, _ | ⟨part', parts⟩⟩, s₁, h₁⟩ := p <;> rfl
      | false =>
        simp only [ask, run_bind, run_offer, Attempt.ok_bind, Bool.false_eq_true, reduceIte]
        cases s.accept? .doubleColon with
        | some p => simp
        | none =>
          simp only [run_bind, run_offer, Attempt.ok_bind]
          cases s.accept? .leftParen with
          | some p => simp
          | none =>
            cases hbrace : s.sees .leftBrace with
            | true => simp
            | false =>
              simp only [run_bind, run_offer, Attempt.ok_bind, Bool.false_eq_true, reduceIte]
              cases s.acceptKeyword? .staticCastWord <;> simp

theorem run_braceTail (s₀ : Tokens) (items : List Initializer) (s : Tokens) (h : s.Shorter s₀) :
    (braceTail s₀ items s h).script.run = Parse.braceTail s₀ items s h := by
  rw [Parse.braceTail, script]
  cases hbrace : s.sees .rightBrace with
  | true => simp
  | false =>
    simp only [ask, answer, run_bind, run_call, run_done, run_offer, Attempt.ok_bind,
      Attempt.bind_ok, Bool.false_eq_true, reduceIte]
    refine bind_congr fun p => ?_
    cases p.next.accept? .comma <;> simp

theorem run_declarator (allowAbstract : Bool) (s₀ s : Tokens) (h : s.Shorter s₀) :
    (declarator allowAbstract s₀ s h).script.run = Parse.declarator allowAbstract s₀ s h := by
  rw [Parse.declarator, script]
  simp only [ask, answer, run_bind, run_call, run_done, run_takeTo, Attempt.ok_bind,
    Attempt.bind_ok]
  obtain ⟨marks, s₁, h₁⟩ := s.pointers []
  obtain ⟨reference, s₂, h₂⟩ := s₁.skip .amp
  simp only [run_offer, Attempt.ok_bind]
  cases s₂.take? Lexeme.identifier? with
  | some p => simp
  | none =>
    simp only [run_bind, run_offer, Attempt.ok_bind]
    cases (if s₂.opensDeclarator then s₂.accept? .leftParen else none) with
    | some p => simp
    | none => cases allowAbstract <;> simp

theorem run_suffixesTail (s₀ start : Tokens) (marks : List Bool) (reference : Bool)
    (base : DeclaratorBase) (suffixes : List DeclaratorSuffix) (s : Tokens) (h : s.Shorter s₀) :
    (suffixesTail s₀ start marks reference base suffixes s h).script.run =
      Parse.suffixesTail s₀ start marks reference base suffixes s h := by
  rw [Parse.suffixesTail.eq_def]
  simp only [script]
  cases s.accept? .leftBracket with
  | some p =>
    simp only [run_bind, run_offer, Attempt.ok_bind]
    cases since p.shorter (p.next.accept? .rightBracket) <;> simp
  | none =>
    cases base with
    | anonymous => simp
    | named name | nested inner =>
      simp only [Bool.false_eq_true, if_false, run_bind, run_offer, Attempt.ok_bind]
      cases s.accept? .leftParen <;> simp

theorem run_paramsTail (s₀ : Tokens) (params : List Param) (s : Tokens) (h : s.Shorter s₀) :
    (paramsTail s₀ params s h).script.run = Parse.paramsTail s₀ params s h := by
  rw [Parse.paramsTail, script]
  cases hparen : s.sees .rightParen with
  | true => simp
  | false =>
    simp only [run_bind, run_offer, Attempt.ok_bind, Bool.false_eq_true, reduceIte]
    cases s.accept? .ellipsis with
    | some p => simp
    | none =>
      simp only [ask, answer, run_bind, run_call, run_done, run_offer, Attempt.ok_bind,
        Attempt.bind_ok]
      refine bind_congr fun spec => bind_congr fun d => bind_congr fun value => ?_
      cases value.next.accept? .comma <;> simp

theorem run_statement (s : Tokens) : (statement s).script.run = Parse.statement s := by
  rw [Parse.statement, script]
  cases hbrace : s.sees .leftBrace with
  | true => simp
  | false =>
    cases hdecl : s.peek.declKeyword?.isSome with
    | true => simp
    | false =>
      simp only [run_bind, run_offer, Attempt.ok_bind, Bool.false_eq_true, reduceIte]
      cases s.take? Lexeme.stmtKeyword? with
      | some p =>
        obtain ⟨_ | _, s₁, h₁⟩ := p
        case ifWord =>
          simp only [ask, answer, run_bind, run_call, run_done, run_offer, Attempt.ok_bind,
            run_since, run_demand, Attempt.bind_ok]
          refine bind_congr fun _ => bind_congr fun _ => bind_congr fun _ => bind_congr fun p => ?_
          cases p.next.acceptKeyword? .elseWord <;> simp
        all_goals simp
      | none =>
        simp only [run_bind, run_offer, Attempt.ok_bind]
        cases s.label? with
        | some p => simp
        | none =>
          cases hstarts : s.startsDeclaration with
          | true => simp
          | false =>
            simp only [run_bind, run_offer, Attempt.ok_bind, Bool.false_eq_true, reduceIte]
            cases s.accept? .semicolon <;> simp

theorem run_forHead (s₀ s : Tokens) (h : s.Shorter s₀) :
    (forHead s₀ s h).script.run = Parse.forHead s₀ s h := by
  rw [Parse.forHead, script]
  simp only [run_bind, run_offer, Attempt.ok_bind]
  cases s.accept? .semicolon with
  | some p => simp
  | none =>
    cases hstarts : s.startsDeclaration with
    | false => simp
    | true =>
      simp only [ask, answer, run_bind, run_call, run_done, run_offer, Attempt.ok_bind,
        Attempt.bind_ok, reduceIte]
      refine bind_congr fun spec => bind_congr fun d => ?_
      cases d.next.accept? .colon <;> simp

theorem run_external (s : Tokens) : (external s).script.run = Parse.external s := by
  rw [Parse.external, script]
  simp only [run_bind, run_offer, Attempt.ok_bind]
  cases s.take? Lexeme.declKeyword? with
  | some p =>
    obtain ⟨_ | _ | _, s₁, h₁⟩ := p
    case namespaceWord =>
      simp only [ask, run_bind, run_offer, Attempt.ok_bind, run_since, run_demand]
      refine bind_congr fun name => ?_
      cases name.next.accept? .assign <;> simp
    all_goals simp
  | none =>
    simp only [run_bind, run_offer, Attempt.ok_bind]
    cases s.structHead? with
    | some p => simp
    | none =>
      simp only [ask, answer, run_bind, run_call, run_done, run_offer, Attempt.ok_bind,
        Attempt.bind_ok]
      refine bind_congr fun spec => ?_
      cases spec.next.accept? .semicolon with
      | some p => simp
      | none =>
        simp only [since_none, run_bind, run_call, run_done, Attempt.bind_ok]
        refine bind_congr fun d => ?_
        cases d.value.functionParams?.isSome && d.next.sees .leftBrace <;> simp

theorem run_structTail (s₀ : Tokens) (name : String) (members : List MemberDecl)
    (methods : List FunctionDef) (s : Tokens) (h : s.Shorter s₀) :
    (structTail s₀ name members methods s h).script.run =
      Parse.structTail s₀ name members methods s h := by
  rw [Parse.structTail, script]
  cases hend : s.sees .rightBrace || s.atEnd with
  | true => simp
  | false =>
    simp only [run_bind, run_offer, Attempt.ok_bind, Bool.false_eq_true, reduceIte]
    cases s.skipAccess? with
    | some p => simp
    | none =>
      simp only [ask, answer, run_bind, run_call, run_done, Attempt.bind_ok]
      refine bind_congr fun spec => bind_congr fun d => ?_
      cases d.value.functionParams?.isSome && d.next.sees .leftBrace <;> simp

theorem run_program (s : Tokens) : (program s).script.run = Parse.items s := by
  rw [Parse.items, script]
  cases hend : s.atEnd with
  | true => rfl
  | false =>
    simp only [run_bind, run_offer, Attempt.ok_bind, Bool.false_eq_true, reduceIte]
    cases s.accept? .semicolon with
    | some p => simp
    | none =>
      simp only [ask, answer, run_bind, run_call, run_done, Attempt.bind_ok]
      refine bind_congr fun p => ?_
      cases items p.next <;> rfl

/-- Run with the answers of the calls it makes, a script gives the answer of its own call. -/
theorem run_script (c : Call) : c.script.run = c.answer := by
  cases c with
  | pathTail s₀ parts s h =>
    rw [answer, Tokens.pathTail, script]
    simp only [run_bind, run_offer, Attempt.ok_bind]
    cases s.accept? .doubleColon <;> simp
  | path s => rw [answer, Tokens.path, script]; simp
  | words s₀ specifiers ws s h hw =>
    rw [answer, TypeSpec.parseWords, script]
    simp only [run_bind, run_offer, Attempt.ok_bind]
    obtain _ | ⟨_ | _ | _, s₁, h₁⟩ := s.take? (TypeSpec.wordOf? s ws)
    · by_cases hne : ws = [] <;> simp [hne]
    all_goals simp
  | typeSpec s => rw [answer, TypeSpec.parse, script]; simp
  | stringTail s₀ width text s h =>
    rw [answer, Tokens.stringTail, script]
    simp only [run_bind, run_offer, Attempt.ok_bind]
    cases s.take? Lexeme.string? <;> simp
  | pointerWords s₀ isConst s h =>
    rw [answer, Tokens.pointerWords, s.take?_congr (g := Lexeme.specifier?), script]
    simp only [run_bind, run_offer, Attempt.ok_bind]
    cases s.take? Lexeme.specifier? <;> simp
    intro l; cases l <;> rfl
  | pointers marks s =>
    rw [answer, Tokens.pointers, script]
    simp only [run_bind, run_offer, Attempt.ok_bind]
    cases s.accept? .star <;> simp
  | expression s => rw [answer, Parse.expression, script]; simp
  | commaTail s₀ left s h =>
    rw [answer, Parse.commaTail, script]
    simp only [run_bind, run_offer, Attempt.ok_bind]
    cases s.accept? .comma <;> simp
  | assignment s => exact run_assignment s
  | conditional s =>
    rw [answer, Parse.conditional, script]
    simp only [ask, answer, run_bind, run_call, run_done, run_offer, Attempt.ok_bind,
      Attempt.bind_ok]
    refine bind_congr fun p => ?_
    cases p.next.accept? .question <;> simp
  | disjunction s => rw [answer, Parse.disjunction, script]; simp
  | disjunctionTail s₀ left s h =>
    rw [answer, Parse.disjunctionTail, script]
    simp only [run_bind, run_offer, Attempt.ok_bind]
    cases s.accept? .orOr <;> simp
  | conjunction s => rw [answer, Parse.conjunction, script]; simp
  | conjunctionTail s₀ left s h =>
    rw [answer, Parse.conjunctionTail, script]
    simp only [run_bind, run_offer, Attempt.ok_bind]
    cases s.accept? .andAnd <;> simp
  | binary least s => rw [answer, Parse.binary, script]; simp
  | binaryTail least s₀ left s h =>
    rw [answer, Parse.binaryTail, script]
    simp only [run_bind, run_offer, Attempt.ok_bind]
    cases s.binaryOperator? least <;> simp
  | unary s => exact run_unary s
  | trailing s => rw [answer, Parse.trailing, script]; simp
  | trailingTail s₀ e s h => exact run_trailingTail s₀ e s h
  | argumentsTail s₀ args s h => exact run_argumentsTail s₀ args s h
  | primary s => exact run_primary s
  | initializer s =>
    rw [answer, Parse.initializer, script]
    cases hbrace : s.sees .leftBrace <;> simp
  | braceList s => rw [answer, Parse.braceList, script]; simp
  | braceTail s₀ items s h => exact run_braceTail s₀ items s h
  | typeName s => rw [answer, Parse.typeName, script]; simp
  | declarator allowAbstract s₀ s h => exact run_declarator allowAbstract s₀ s h
  | suffixesTail s₀ start marks reference base suffixes s h => exact run_suffixesTail s₀ start marks reference base suffixes s h
  | paramsTail s₀ params s h => exact run_paramsTail s₀ params s h
  | defaultArgument s₀ s h =>
    rw [answer, Parse.defaultArgument, script]
    simp only [run_bind, run_offer, Attempt.ok_bind]
    cases s.accept? .assign <;> simp
  | initDeclarators s₀ earlier d s h =>
    rw [answer, Parse.initDeclarators, script]
    simp only [run_bind, run_offer, Attempt.ok_bind]
    cases s.accept? .assign <;> simp
  | moreDeclarators s₀ earlier s h =>
    rw [answer, Parse.moreDeclarators, script]
    simp only [run_bind, run_offer, Attempt.ok_bind]
    cases s.accept? .comma <;> simp
  | typedefTail s₀ s h => rw [answer, Parse.typedefTail, script]; simp
  | usingTail s₀ s h =>
    rw [answer, Parse.usingTail, script]
    simp only [run_bind, run_offer, Attempt.ok_bind]
    cases s.acceptKeyword? .namespaceWord <;> simp
  | optionalBefore x role s =>
    rw [answer, Parse.optionalBefore, script]
    simp only [run_bind, run_offer, Attempt.ok_bind]
    cases s.accept? x <;> simp
  | compound s => rw [answer, Parse.compound, script]; simp
  | blockTail s₀ body s h =>
    rw [answer, Parse.blockTail, script]
    cases hend : s.sees .rightBrace || s.atEnd <;> simp
  | statement s => exact run_statement s
  | forHead s₀ s h => exact run_forHead s₀ s h
  | forClauses s₀ init s h => rw [answer, Parse.forClauses, script]; simp
  | external s => exact run_external s
  | namespaceTail s₀ s h =>
    rw [answer, Parse.namespaceTail, script]
    cases hend : s.sees .rightBrace || s.atEnd <;> simp
  | structTail s₀ name members methods s h => exact run_structTail s₀ name members methods s h
  | program s => exact run_program s

end Call

end Parse

end Stepwise
