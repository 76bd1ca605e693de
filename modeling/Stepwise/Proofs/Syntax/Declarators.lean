import Stepwise.Proofs.Syntax.Printing

/-! # Printing declarators

A declarator is printed as it is read: marks, a name or a declarator in parentheses, and
suffixes. Parentheses stand only around a declarator that begins with a mark. Parsing undoes
printing, up to spans.
-/

namespace Stepwise

open Lexeme

mutual

/-- The lexemes of a declarator. -/
def Declarator.print : Declarator → List Lexeme
  | .mk _ marks reference base suffixes =>
    marks.flatMap ofPointer ++ ((if reference then [symbol .amp] else [])
      ++ (base.print ++ DeclaratorSuffix.printAll suffixes))

def DeclaratorBase.print : DeclaratorBase → List Lexeme
  | .named name => [identifier name]
  | .nested inner => parens inner.print
  | .anonymous => []

/-- The lexemes of an array bound or a parameter list. -/
def DeclaratorSuffix.print : DeclaratorSuffix → List Lexeme
  | .array none => [symbol .leftBracket, symbol .rightBracket]
  | .array (some size) => symbol .leftBracket :: size.print .expression ++ [symbol .rightBracket]
  | .params params variadic => parens (Param.printList params variadic)

def DeclaratorSuffix.printAll : List DeclaratorSuffix → List Lexeme
  | [] => []
  | s :: ss => s.print ++ DeclaratorSuffix.printAll ss

/-- The lexemes of a parameter without its default. -/
def Param.print : Param → List Lexeme
  | .mk _ spec d _ => spec.print ++ d.print

/-- The lexemes between the parentheses of a parameter list. -/
def Param.printList : List Param → Bool → List Lexeme
  | [], variadic => if variadic then [symbol .ellipsis] else []
  | p :: ps, variadic => p.print ++
      if ps.isEmpty && !variadic then [] else symbol .comma :: Param.printList ps variadic

end

namespace Declarator

/-- A mark stands in front of the direct part. -/
def isMarked : Declarator → Bool
  | .mk _ marks reference _ _ => !marks.isEmpty || reference

end Declarator

mutual

/-- Declarators of names in which only marked parts are in parentheses, bounds are printed
expressions, and parameters have known types and no default. A part without a name or
parentheses has no parameters. -/
def Declarator.Plain (types : List String) : Declarator → Prop
  | .mk _ _ _ base suffixes =>
    base.Plain types ∧ DeclaratorSuffix.AllPlain types suffixes ∧
      (base = .anonymous → ∀ params variadic, .params params variadic ∉ suffixes)

def DeclaratorBase.Plain (types : List String) : DeclaratorBase → Prop
  | .named name => isName name = true
  | .nested inner => inner.isMarked = true ∧ inner.Plain types
  | .anonymous => True

def DeclaratorSuffix.Plain (types : List String) : DeclaratorSuffix → Prop
  | .array none => True
  | .array (some size) => size.Plain types
  | .params params _ => Param.AllPlain types params

def DeclaratorSuffix.AllPlain (types : List String) : List DeclaratorSuffix → Prop
  | [] => True
  | s :: ss => s.Plain types ∧ DeclaratorSuffix.AllPlain types ss

/-- The word `void` alone is no parameter. -/
def Param.Plain (types : List String) : Param → Prop
  | .mk _ spec d value =>
    spec.IsKnown types ∧ d.Plain types ∧ value = none ∧ (spec.words = ["void"] → d.print ≠ [])

def Param.AllPlain (types : List String) : List Param → Prop
  | [] => True
  | p :: ps => p.Plain types ∧ Param.AllPlain types ps

end

variable {types : List String} {x : Symbol} {ls : List Lexeme} {s : Tokens}

theorem DeclaratorSuffix.printAll_append (ss ts : List DeclaratorSuffix) :
    printAll (ss ++ ts) = printAll ss ++ printAll ts := by
  induction ss with
  | nil => rfl
  | cons s ss ih => rw [List.cons_append, printAll, printAll, ih, List.append_assoc]

theorem DeclaratorSuffix.allPlain_iff (suffixes : List DeclaratorSuffix) :
    AllPlain types suffixes ↔ ∀ suffix ∈ suffixes, suffix.Plain types := by
  induction suffixes with
  | nil => simp [AllPlain]
  | cons suffix suffixes ih => rw [AllPlain, ih, List.forall_mem_cons]

theorem Param.allPlain_iff (params : List Param) :
    AllPlain types params ↔ ∀ p ∈ params, p.Plain types := by
  induction params with
  | nil => simp [AllPlain]
  | cons p ps ih => rw [AllPlain, ih, List.forall_mem_cons]

/-- A lexeme that a declarator may begin with. -/
def Lexeme.opensDeclarator : Lexeme → Bool
  | symbol .star | symbol .amp | symbol .leftParen | symbol .leftBracket | identifier _ => true
  | _ => false

/-- A symbol that may stand behind a declarator. -/
def Symbol.endsDeclarator : Symbol → Bool
  | comma | semicolon | rightParen | leftBrace => true
  | _ => false

theorem Symbol.endsMarks_of_endsDeclarator (hx : x.endsDeclarator = true) :
    (Lexeme.symbol x).endsMarks = true := by
  cases x with
  | comma | semicolon | rightParen | leftBrace => rfl
  | _ => cases hx

theorem Lexeme.isSymbol_of_opensDeclarator {l : Lexeme} (hl : l.opensDeclarator = true)
    (hx : x.endsDeclarator = true) : l.isSymbol x = false := by
  refine isSymbol_eq_false ?_
  rintro rfl
  cases x with
  | comma | semicolon | rightParen | leftBrace => cases hl
  | _ => cases hx

theorem DeclaratorSuffix.exists_print (suffix : DeclaratorSuffix) :
    ∃ y us, suffix.print = symbol y :: us ∧ (y = .leftBracket ∨ y = .leftParen) := by
  cases suffix with
  | array size => cases size <;> exact ⟨_, _, rfl, .inl rfl⟩
  | params => exact ⟨_, _, rfl, .inr rfl⟩

/-- No parenthesis opens behind a part that takes no parameters. -/
theorem DeclaratorSuffix.exists_printAll {suffixes : List DeclaratorSuffix}
    (h : ∀ params variadic, .params params variadic ∉ suffixes) (hx : x.endsDeclarator = true)
    (ls : List Lexeme) :
    ∃ y us, printAll suffixes ++ symbol x :: ls = symbol y :: us ∧
      (symbol y).isSymbol .leftParen = false := by
  cases suffixes with
  | nil => exact ⟨x, ls, rfl, by cases x <;> first | rfl | cases hx⟩
  | cons suffix suffixes =>
    cases suffix with
    | array size => cases size <;> exact ⟨_, _, rfl, rfl⟩
    | params ps variadic => exact absurd List.mem_cons_self (h ps variadic)

/-- The direct part and the suffixes end the marks before them, together with what follows. -/
theorem DeclaratorBase.exists_print (base : DeclaratorBase) (suffixes : List DeclaratorSuffix)
    (hx : x.endsDeclarator = true) (ls : List Lexeme) :
    ∃ k us, base.print ++ DeclaratorSuffix.printAll suffixes ++ symbol x :: ls = k :: us ∧
      k.endsMarks = true := by
  cases base with
  | named name => exact ⟨_, _, rfl, rfl⟩
  | nested inner => exact ⟨_, _, rfl, rfl⟩
  | anonymous =>
    cases suffixes with
    | nil => exact ⟨_, _, rfl, Symbol.endsMarks_of_endsDeclarator hx⟩
    | cons suffix suffixes =>
      obtain ⟨y, us, hus, hy⟩ := suffix.exists_print
      refine ⟨symbol y, us ++ DeclaratorSuffix.printAll suffixes ++ symbol x :: ls, ?_, ?_⟩
      · simp [DeclaratorBase.print, DeclaratorSuffix.printAll, hus]
      · obtain rfl | rfl := hy <;> rfl

namespace Declarator

theorem opensDeclarator_of_mem_head? (d : Declarator) :
    ∀ l ∈ d.print.head?, l.opensDeclarator = true := by
  obtain ⟨span, marks, reference, base, suffixes⟩ := d
  intro l hl
  rw [print] at hl
  cases marks with
  | cons isConst marks => obtain rfl := Option.some.inj hl; rfl
  | nil =>
    cases reference with
    | true => obtain rfl := Option.some.inj hl; rfl
    | false =>
      cases base with
      | named name => obtain rfl := Option.some.inj hl; rfl
      | nested inner => obtain rfl := Option.some.inj hl; rfl
      | anonymous =>
        cases suffixes with
        | nil => cases hl
        | cons suffix suffixes =>
          obtain ⟨y, us, hus, hy⟩ := suffix.exists_print
          simp only [List.flatMap_nil, DeclaratorBase.print, DeclaratorSuffix.printAll, hus,
            List.nil_append, Bool.false_eq_true, if_false, List.cons_append, List.head?_cons,
            Option.mem_some_iff] at hl
          obtain rfl := hl
          obtain rfl | rfl := hy <;> rfl

/-- A marked declarator begins with a mark. -/
theorem exists_print_of_isMarked {d : Declarator} (h : d.isMarked = true) :
    ∃ y us, d.print = symbol y :: us ∧ (y = .star ∨ y = .amp) := by
  obtain ⟨span, marks, reference, base, suffixes⟩ := d
  cases marks with
  | cons isConst marks => exact ⟨.star, _, rfl, .inl rfl⟩
  | nil =>
    obtain rfl : reference = true := h
    exact ⟨.amp, _, rfl, .inr rfl⟩

/-- A declarator and what ends it close the words of a type before them. -/
theorem exists_print_append (d : Declarator) (x : Symbol) (ls : List Lexeme) :
    ∃ k us, d.print ++ symbol x :: ls = k :: us ∧ k.closesWords = true ∧
      (d.print ≠ [] → k.opensDeclarator = true) := by
  cases hd : d.print with
  | nil => exact ⟨symbol x, ls, rfl, rfl, fun h => absurd rfl h⟩
  | cons l us =>
    have hl := d.opensDeclarator_of_mem_head? l (by rw [hd]; rfl)
    refine ⟨l, us ++ symbol x :: ls, rfl, ?_, fun _ => hl⟩
    cases l with
    | symbol | identifier => rfl
    | _ => cases hl

/-- The declarator of a name is not empty. -/
theorem print_ne_nil_of_name? {d : Declarator} (h : d.name?.isSome = true) : d.print ≠ [] := by
  obtain ⟨span, marks, reference, base, suffixes⟩ := d
  cases base with
  | anonymous => cases h
  | _ => simp [print, DeclaratorBase.print, parens]

end Declarator

/-- A lexeme that the words of a type may begin with. -/
def Lexeme.opensType : Lexeme → Bool
  | specifier _ | typeWord _ | identifier _ => true
  | _ => false

theorem Lexeme.isSymbol_of_opensType {l : Lexeme} (h : l.opensType = true) (x : Symbol) :
    l.isSymbol x = false := by
  cases l with
  | symbol => cases h
  | _ => rfl

theorem TypeSpec.IsKnown.exists_print {spec : TypeSpec} (h : spec.IsKnown types) :
    ∃ l us, spec.print = l :: us ∧ l.opensType = true := by
  obtain ⟨specifiers, words, span⟩ := spec
  cases specifiers with
  | cons w ws => exact ⟨_, _, rfl, rfl⟩
  | nil =>
    obtain ⟨hne, hwords⟩ | ⟨name, -, hname, hwords⟩ := h.words
    · cases words with
      | nil => exact absurd rfl hne
      | cons w ws =>
        refine ⟨ofWord w, ws.map ofWord, rfl, ?_⟩
        rw [ofWord_of_mem_typeWords (hwords w List.mem_cons_self)]
        rfl
    · obtain rfl : words = [name] := hwords
      exact ⟨ofWord name, [], rfl, by rw [ofWord_of_isName hname]; rfl⟩

namespace Tokens

theorem Holds.skipVoid_of_ne {k : Lexeme} (hs : s.Holds types (k :: ls))
    (hk : k ≠ typeWord "void") : s.skipVoid.val = s := by
  rw [skipVoid]
  split
  · split
    · next heq =>
      have hvoid := (hs.of_take?_eq_some heq).1
      split at hvoid
      · exact absurd rfl hk
      · cases hvoid
    · rfl
  · rfl

theorem Holds.skipVoid_of_ahead {k l : Lexeme} (hs : s.Holds types (k :: l :: ls))
    (hl : l.isSymbol .rightParen = false) : s.skipVoid.val = s := by
  have hahead : (s.ahead 1).isSymbol .rightParen = false := by rw [hs.ahead_eq 1]; exact hl
  rw [skipVoid, hahead]
  rfl

/-- What is printed for parameters is not taken for an empty list. -/
theorem Holds.skipVoid_eq {params : List Param} {variadic : Bool}
    (hparams : Param.AllPlain types params)
    (hs : s.Holds types (Param.printList params variadic ++ symbol .rightParen :: ls)) :
    s.skipVoid.val = s := by
  cases params with
  | nil => cases variadic <;> exact hs.skipVoid_of_ne (by simp)
  | cons p ps =>
    obtain ⟨span, ⟨specifiers, words, span'⟩, d, value⟩ := p
    obtain ⟨⟨hspec, -, -, hvoid⟩, -⟩ := hparams
    obtain ⟨y, us, hus⟩ : ∃ y us, (if ps.isEmpty && !variadic then [] else
        symbol .comma :: Param.printList ps variadic) ++ symbol .rightParen :: ls =
          symbol y :: us := by
      split <;> exact ⟨_, _, rfl⟩
    rw [Param.printList, Param.print, List.append_assoc, hus, List.append_assoc] at hs
    cases specifiers with
    | cons w ws => exact hs.skipVoid_of_ne (by simp)
    | nil =>
      obtain ⟨hne, hwords⟩ | ⟨name, -, hname, hwords⟩ := hspec.words
      · cases words with
        | nil => exact absurd rfl hne
        | cons w ws =>
          rw [TypeSpec.print, TypeSpec.map_ofWord_of_mem_typeWords hwords] at hs
          cases ws with
          | cons v ws => exact hs.skipVoid_of_ahead rfl
          | nil =>
            obtain ⟨k, ks, hks, -, hk⟩ := d.exists_print_append y us
            rw [hks] at hs
            by_cases hw : w = "void"
            · exact hs.skipVoid_of_ahead (isSymbol_of_opensDeclarator (hk (hvoid (by rw [hw]))) rfl)
            · exact hs.skipVoid_of_ne fun h => hw (typeWord.inj h)
      · obtain rfl : words = [name] := hwords
        rw [TypeSpec.print, List.map_singleton, ofWord_of_isName hname] at hs
        exact hs.skipVoid_of_ne (by simp)

end Tokens

namespace Parse

mutual

/-- A printed declarator is read up to the symbol that ends it. -/
theorem declarator_print (allowAbstract : Bool) :
    (d : Declarator) → d.Plain types → (allowAbstract = true ∨ d.name?.isSome = true) →
    {s₀ s : Tokens} → (h : s.Shorter s₀) → {x : Symbol} → x.endsDeclarator = true →
    {ls : List Lexeme} → s.Holds types (d.print ++ symbol x :: ls) →
    ∃ d' t ht, declarator allowAbstract s₀ s h = .ok ⟨d', t, ht⟩ ∧ d'.bare = d.bare ∧
      t.Holds types (symbol x :: ls)
  | .mk span marks reference base suffixes => by
    intro hd habstract s₀ s h x hx ls hs
    obtain ⟨hbase, hsuffixes, hcallable⟩ := hd
    obtain ⟨k, us, hus, hk⟩ := base.exists_print suffixes hx ls
    rw [Declarator.print, List.append_assoc, List.append_assoc, hus] at hs
    obtain ⟨hmarks, hreference, hs₂⟩ := hs.marks_eq marks reference hk
    have hshorter : ((s.pointers []).2.val.skip .amp).2.val.Shorter s₀ :=
      Nat.lt_of_le_of_lt (Nat.le_trans ((s.pointers []).2.val.skip .amp).2.property
        (s.pointers []).2.property) h
    rw [← hus] at hs₂
    match base with
    | .named name =>
      obtain ⟨s₃, h₃, heq₃, hs₃⟩ := hs₂.take?_eq_some (f := Lexeme.identifier?) rfl
      obtain ⟨suffixes', t, ht, heq, hbare, hh⟩ := suffixesTail_print _ suffixes hsuffixes hcallable s
        marks reference [] (h₃.trans hshorter) hx hs₃
      refine ⟨.mk (s.spanTo t) marks reference (.named name) suffixes', t, ht, ?_,
        by simp [Declarator.bare, hbare], hh⟩
      rw [declarator]
      simp only [hmarks, hreference, heq₃]
      exact heq
    | .nested inner =>
      obtain ⟨hmarked, hinner⟩ := hbase
      obtain ⟨y, vs, hvs, hy⟩ := Declarator.exists_print_of_isMarked hmarked
      rw [DeclaratorBase.print, parens, List.append_assoc, List.append_assoc] at hs₂
      have hname : ((s.pointers []).2.val.skip .amp).2.val.take? Lexeme.identifier? = none :=
        hs₂.take?_cons_eq_none rfl
      have hopen : ((s.pointers []).2.val.skip .amp).2.val.opensDeclarator = true := by
        rw [Tokens.opensDeclarator, hs₂.sees_eq, hs₂.ahead_eq 1, hvs]
        obtain rfl | rfl := hy <;> rfl
      obtain ⟨s₃, h₃, heq₃, hs₃⟩ := hs₂.accept?_eq_some
      obtain ⟨inner', s₄, h₄, heq₄, hbare₄, hs₄⟩ :=
        declarator_print allowAbstract inner hinner habstract h₃ rfl hs₃
      obtain ⟨s₅, h₅, heq₅, hs₅⟩ := hs₄.expect_eq "after nested declarator"
      obtain ⟨suffixes', t, ht, heq, hbare, hh⟩ := suffixesTail_print (.nested inner') suffixes
        hsuffixes nofun s marks reference [] ((h₅.trans h₄).trans hshorter) hx hs₅
      refine ⟨.mk (s.spanTo t) marks reference (.nested inner') suffixes', t, ht, ?_,
        by simp [Declarator.bare, DeclaratorBase.bare, hbare, hbare₄], hh⟩
      rw [declarator]
      simp only [hmarks, hreference, hname, hopen, if_true, heq₃, heq₄, heq₅, since_ok,
        Attempt.ok_bind]
      exact heq
    | .anonymous =>
      obtain ⟨y, vs, hvs, hy⟩ := DeclaratorSuffix.exists_printAll (hcallable rfl) hx ls
      rw [List.append_assoc, hvs] at hs₂
      have hname : ((s.pointers []).2.val.skip .amp).2.val.take? Lexeme.identifier? = none :=
        hs₂.take?_cons_eq_none rfl
      have hopen : ((s.pointers []).2.val.skip .amp).2.val.opensDeclarator = false := by
        rw [Tokens.opensDeclarator, hs₂.sees_eq, hy, Bool.false_and]
      change Tokens.Holds _ types (symbol y :: vs) at hs₂
      rw [← hvs] at hs₂
      obtain rfl := habstract.resolve_right (by simp [Declarator.name?])
      obtain ⟨suffixes', t, ht, heq, hbare, hh⟩ := suffixesTail_print _ suffixes hsuffixes hcallable
        s marks reference [] hshorter hx hs₂
      refine ⟨.mk (s.spanTo t) marks reference .anonymous suffixes', t, ht, ?_,
        by simp [Declarator.bare, hbare], hh⟩
      rw [declarator]
      simp only [hmarks, hreference, hname, hopen, Bool.false_eq_true, if_false, if_true]
      exact heq

theorem suffixesTail_print (base : DeclaratorBase) :
    (suffixes : List DeclaratorSuffix) → DeclaratorSuffix.AllPlain types suffixes →
    (base = .anonymous → ∀ params variadic, .params params variadic ∉ suffixes) →
    {s₀ s : Tokens} → (start : Tokens) → (marks : List Bool) → (reference : Bool) →
    (before : List DeclaratorSuffix) → (h : s.Shorter s₀) → {x : Symbol} →
    x.endsDeclarator = true → {ls : List Lexeme} →
    s.Holds types (DeclaratorSuffix.printAll suffixes ++ symbol x :: ls) →
    ∃ suffixes' t ht, suffixesTail s₀ start marks reference base before s h =
        .ok ⟨.mk (start.spanTo t) marks reference base (before.reverse ++ suffixes'), t, ht⟩ ∧
      DeclaratorSuffix.bareAll suffixes' = DeclaratorSuffix.bareAll suffixes ∧
      t.Holds types (symbol x :: ls)
  | [] => by
    intro _ _ s₀ s start marks reference before h x hx ls hs
    have hbracket : s.accept? .leftBracket = none :=
      hs.accept?_cons_eq_none (by cases x <;> first | rfl | cases hx)
    have hparen : s.accept? .leftParen = none :=
      hs.accept?_cons_eq_none (by cases x <;> first | rfl | cases hx)
    refine ⟨[], s, h, ?_, rfl, hs⟩
    rw [suffixesTail.eq_def]
    simp only [hbracket, hparen, ite_self, List.append_nil]
  | .array none :: suffixes => by
    intro hsuffixes hcallable s₀ s start marks reference before h x hx ls hs
    obtain ⟨s₁, h₁, heq₁, hs₁⟩ := hs.accept?_eq_some
    obtain ⟨s₂, h₂, heq₂, hs₂⟩ := hs₁.accept?_eq_some
    obtain ⟨suffixes', t, ht, heq, hbare, hh⟩ := suffixesTail_print base suffixes hsuffixes.2
      (fun hb ps v hm => hcallable hb ps v (List.mem_cons_of_mem _ hm)) start marks reference
      (.array none :: before) ((h₂.trans h₁).trans h) hx hs₂
    refine ⟨.array none :: suffixes', t, ht, ?_, ?_, hh⟩
    · rw [suffixesTail.eq_def]
      simp only [heq₁, heq₂, since_some]
      rw [heq, List.reverse_cons, List.append_assoc, List.singleton_append]
    · simp [DeclaratorSuffix.bareAll, hbare]
  | .array (some size) :: suffixes => by
    intro hsuffixes hcallable s₀ s start marks reference before h x hx ls hs
    obtain ⟨hsize, hrest⟩ := hsuffixes
    simp only [DeclaratorSuffix.printAll, DeclaratorSuffix.print, List.append_assoc,
      List.cons_append, List.nil_append] at hs
    obtain ⟨s₁, h₁, heq₁, hs₁⟩ := hs.accept?_eq_some
    obtain ⟨l, us, hus, hl⟩ := (hsize.phrase .expression).opens
    have hopen : s₁.accept? .rightBracket = none := by
      rw [hus] at hs₁
      exact hs₁.accept?_cons_eq_none (isSymbol_eq_false (hl.ne_symbol (by decide) rfl))
    obtain ⟨size', s₂, h₂, heq₂, hbare₂, hs₂⟩ :=
      (hsize.phrase .expression).reads.whole s₁ _ hs₁ (Level.stops_of_joins?_eq_none rfl)
    have hexpression : expression s₁ = _ := heq₂
    obtain ⟨s₃, h₃, heq₃, hs₃⟩ := hs₂.expect_eq "after array size"
    obtain ⟨suffixes', t, ht, heq, hbare, hh⟩ := suffixesTail_print base suffixes hrest
      (fun hb ps v hm => hcallable hb ps v (List.mem_cons_of_mem _ hm)) start marks reference
      (.array (some size') :: before) (((h₃.trans h₂).trans h₁).trans h) hx hs₃
    refine ⟨.array (some size') :: suffixes', t, ht, ?_, ?_, hh⟩
    · rw [suffixesTail.eq_def]
      simp only [heq₁, hopen, hexpression, heq₃, since_none, since_ok, Attempt.ok_bind]
      rw [heq, List.reverse_cons, List.append_assoc, List.singleton_append]
    · simp [DeclaratorSuffix.bareAll, DeclaratorSuffix.bare, Expr.bareOption, hbare, hbare₂]
  | .params params variadic :: suffixes => by
    intro hsuffixes hcallable s₀ s start marks reference before h x hx ls hs
    obtain ⟨hparams, hrest⟩ := hsuffixes
    have hbase : base ≠ .anonymous :=
      fun hb => hcallable hb params variadic List.mem_cons_self
    simp only [DeclaratorSuffix.printAll, DeclaratorSuffix.print, parens, List.append_assoc,
      List.cons_append, List.nil_append] at hs
    have hbracket : s.accept? .leftBracket = none := hs.accept?_cons_eq_none rfl
    obtain ⟨s₁, h₁, heq₁, hs₁⟩ := hs.accept?_eq_some
    have hvoid : s₁.skipVoid = ⟨s₁, Nat.le_refl _⟩ := Subtype.ext (hs₁.skipVoid_eq hparams)
    obtain ⟨params', s₂, h₂, heq₂, hbare₂, hs₂⟩ := paramsTail_print params hparams [] h₁ hs₁
    obtain ⟨suffixes', t, ht, heq, hbare, hh⟩ := suffixesTail_print base suffixes hrest
      (fun hb => absurd hb hbase) start marks reference
      (.params params' variadic :: before) (h₂.trans h) hx hs₂
    refine ⟨.params params' variadic :: suffixes', t, ht, ?_, ?_, hh⟩
    · rw [suffixesTail.eq_def]
      simp only [hbracket, heq₁, Bool.false_eq_true, if_false, hvoid, heq₂, Attempt.ok_bind,
        List.reverse_nil, List.nil_append]
      rw [heq, List.reverse_cons, List.append_assoc, List.singleton_append]
    · simp [DeclaratorSuffix.bareAll, DeclaratorSuffix.bare, hbare, hbare₂]

/-- Printed parameters are read up to the parenthesis that closes them. -/
theorem paramsTail_print :
    (params : List Param) → Param.AllPlain types params → {variadic : Bool} →
    {s₀ s : Tokens} → (before : List Param) → (h : s.Shorter s₀) → {ls : List Lexeme} →
    s.Holds types (Param.printList params variadic ++ symbol .rightParen :: ls) →
    ∃ params' t ht, paramsTail s₀ before s h = .ok ⟨(before.reverse ++ params', variadic), t, ht⟩ ∧
      Param.bareAll params' = Param.bareAll params ∧ t.Holds types ls
  | [] => by
    intro _ variadic s₀ s before h ls hs
    cases variadic with
    | false =>
      obtain ⟨t, ht, heq, hh⟩ := hs.expect_eq "after parameter list"
      have hsees : s.sees .rightParen = true := hs.sees_eq _
      refine ⟨[], t, ht.trans h, ?_, rfl, hh⟩
      rw [paramsTail]
      simp only [hsees, if_true, heq, Attempt.ok_bind, List.append_nil]
    | true =>
      have hsees : s.sees .rightParen = false := hs.sees_eq _
      obtain ⟨s₁, h₁, heq₁, hs₁⟩ := hs.accept?_eq_some
      obtain ⟨t, ht, heq, hh⟩ := hs₁.expect_eq "after parameter list"
      refine ⟨[], t, (ht.trans h₁).trans h, ?_, rfl, hh⟩
      rw [paramsTail]
      simp only [hsees, Bool.false_eq_true, if_false, heq₁, heq, since_ok, Attempt.ok_bind,
        List.append_nil]
  | .mk span spec d value :: ps => by
    intro hparams variadic s₀ s before h ls hs
    obtain ⟨⟨hspec, hd, hvalue, -⟩, hrest⟩ := hparams
    obtain ⟨y, us, hus, hy⟩ : ∃ y us, (if ps.isEmpty && !variadic then [] else
        symbol .comma :: Param.printList ps variadic) ++ symbol .rightParen :: ls =
          symbol y :: us ∧ y.endsDeclarator = true := by
      split <;> exact ⟨_, _, rfl, rfl⟩
    rw [Param.printList, Param.print, List.append_assoc, List.append_assoc, hus] at hs
    have hsees : s.sees .rightParen = false ∧ s.accept? .ellipsis = none := by
      obtain ⟨l, vs, hvs, hl⟩ := hspec.exists_print
      rw [hvs] at hs
      exact ⟨by rw [hs.sees_eq, isSymbol_of_opensType hl],
        hs.accept?_cons_eq_none (isSymbol_of_opensType hl _)⟩
    obtain ⟨k, ks, hks, hk, -⟩ := d.exists_print_append y us
    rw [hks] at hs
    obtain ⟨spec', s₁, h₁, heq₁, hbare₁, hs₁⟩ := TypeSpec.parse_known hspec hk hs
    rw [← hks] at hs₁
    obtain ⟨d', s₂, h₂, heq₂, hbare₂, hs₂⟩ := declarator_print true d hd (.inl rfl) h₁ hy hs₁
    have hdefault : defaultArgument s s₂ h₂ = .ok ⟨none, s₂, h₂⟩ := by
      have hassign : s₂.accept? .assign = none :=
        hs₂.accept?_cons_eq_none (by cases y <;> first | rfl | cases hy)
      rw [defaultArgument, hassign]
    by_cases hlast : (ps.isEmpty && !variadic) = true
    · simp only [hlast, if_true, List.nil_append] at hus
      cases hus
      obtain ⟨hps, hvariadic⟩ : ps = [] ∧ variadic = false := by simpa using hlast
      have hcomma : s₂.accept? .comma = none := hs₂.accept?_cons_eq_none rfl
      obtain ⟨t, ht, heq, hh⟩ := hs₂.expect_eq "after parameter list"
      refine ⟨[.mk (s.spanTo s₂) spec' d' none], t, (ht.trans h₂).trans h, ?_, ?_, hh⟩
      · rw [paramsTail]
        simp only [hsees, Bool.false_eq_true, if_false, heq₁, heq₂, hdefault, hcomma, heq,
          since_none, since_ok, Attempt.ok_bind, List.reverse_cons, hvariadic]
      · simp [Param.bareAll, Param.bare, Expr.bareOption, hps, hvalue, hbare₁, hbare₂]
    · simp only [hlast, Bool.false_eq_true, if_false, List.cons_append] at hus
      cases hus
      obtain ⟨s₃, h₃, heq₃, hs₃⟩ := hs₂.accept?_eq_some
      obtain ⟨ps', t, ht, heq, hbare, hh⟩ := paramsTail_print ps hrest
        (.mk (s.spanTo s₂) spec' d' none :: before) ((h₃.trans h₂).trans h) hs₃
      refine ⟨.mk (s.spanTo s₂) spec' d' none :: ps', t, ht, ?_, ?_, hh⟩
      · rw [paramsTail]
        simp only [hsees, Bool.false_eq_true, if_false, heq₁, heq₂, hdefault, heq₃, heq,
          since_some, Attempt.ok_bind, List.reverse_cons, List.append_assoc,
          List.singleton_append]
      · simp [Param.bareAll, Param.bare, Expr.bareOption, hvalue, hbare, hbare₁, hbare₂]

end

/-- A printed declaration of one name is read. -/
theorem external_print {spec : TypeSpec} {d : Declarator} (hspec : spec.IsKnown types)
    (hd : d.Plain types) (hname : d.name?.isSome = true)
    (hs : s.Holds types (spec.print ++ (d.print ++ symbol .semicolon :: ls))) :
    ∃ span spec' d' t ht, external s = .ok ⟨.declaration span ⟨spec', [⟨d', none⟩]⟩, t, ht⟩ ∧
      spec'.bare = spec.bare ∧ d'.bare = d.bare ∧ t.Holds types ls := by
  have hkeyword : s.take? Lexeme.declKeyword? = none ∧ s.acceptKeyword? .structWord = none := by
    obtain ⟨l, us, hus, hl⟩ := hspec.exists_print
    rw [hus] at hs
    constructor <;> refine hs.take?_cons_eq_none ?_ <;> cases l <;> first | rfl | cases hl
  have hstruct : s.structHead? = none := by
    rw [Tokens.structHead?, hkeyword.2]
    exact ite_self none
  obtain ⟨k, ks, hks, hk, hopens⟩ := d.exists_print_append .semicolon ls
  rw [hks] at hs
  obtain ⟨spec', s₁, h₁, heq₁, hbare₁, hs₁⟩ := TypeSpec.parse_known hspec hk hs
  have hmore : s₁.accept? .semicolon = none :=
    hs₁.accept?_cons_eq_none
      (isSymbol_of_opensDeclarator (hopens (Declarator.print_ne_nil_of_name? hname)) rfl)
  rw [← hks] at hs₁
  obtain ⟨d', s₂, h₂, heq₂, hbare₂, hs₂⟩ := declarator_print false d hd (.inr hname) h₁ rfl hs₁
  have hbrace : s₂.sees .leftBrace = false := hs₂.sees_eq _
  have hassign : s₂.accept? .assign = none := hs₂.accept?_cons_eq_none rfl
  have hcomma : s₂.accept? .comma = none := hs₂.accept?_cons_eq_none rfl
  have hone : initDeclarators s [] d' s₂ h₂ = .ok ⟨[⟨d', none⟩], s₂, h₂⟩ := by
    rw [initDeclarators, hassign]
    simp only
    rw [moreDeclarators, hcomma]
    rfl
  obtain ⟨t, ht, heq, hh⟩ := hs₂.expect_eq "after declaration"
  refine ⟨s.spanTo t, spec', d', t, ht.trans h₂, ?_, hbare₁, hbare₂, hh⟩
  rw [external]
  simp only [hkeyword.1, hstruct, heq₁, hmore, since_none, heq₂, hbrace, Bool.and_false,
    Bool.false_eq_true, if_false, hone, heq, since_ok, Attempt.ok_bind]

end Parse

namespace Lexeme

theorem allSpelled_known {spec : TypeSpec} (h : spec.IsKnown types) : AllSpelled spec.print := by
  have hspecifiers : AllSpelled (spec.specifiers.map specifier) :=
    List.forall_mem_map.mpr h.specifiers
  have hwords : AllSpelled (spec.words.map ofWord) := by
    obtain ⟨-, hwords⟩ | ⟨name, -, hname, hwords⟩ := h.words
    · rw [TypeSpec.map_ofWord_of_mem_typeWords hwords]
      exact List.forall_mem_map.mpr hwords
    · rw [hwords, List.map_singleton, ofWord_of_isName hname]
      simp [hname]
  exact (allSpelled_append _ _).mpr ⟨hspecifiers, hwords⟩

end Lexeme

mutual

/-- What is printed for a declarator can be scanned. -/
theorem Declarator.Plain.allSpelled : (d : Declarator) → d.Plain types → AllSpelled d.print
  | .mk _ marks reference base suffixes => by
    intro h
    have hbase : AllSpelled base.print := by
      match base with
      | .named name => exact (allSpelled_cons _ _).mpr ⟨h.1, allSpelled_nil⟩
      | .nested inner => exact (allSpelled_parens _).mpr (Declarator.Plain.allSpelled inner h.1.2)
      | .anonymous => exact allSpelled_nil
    have hsuffixes := DeclaratorSuffix.AllPlain.allSpelled suffixes h.2.1
    cases reference <;> simp [Declarator.print, allSpelled_ofPointers, hbase, hsuffixes]

theorem DeclaratorSuffix.AllPlain.allSpelled : (suffixes : List DeclaratorSuffix) →
    DeclaratorSuffix.AllPlain types suffixes → AllSpelled (DeclaratorSuffix.printAll suffixes)
  | [] => fun _ => allSpelled_nil
  | .array none :: suffixes => by
    intro h
    simp [DeclaratorSuffix.printAll, DeclaratorSuffix.print,
      DeclaratorSuffix.AllPlain.allSpelled suffixes h.2]
  | .array (some size) :: suffixes => by
    intro h
    have hsize : AllSpelled (size.print .expression) := Expr.Plain.allSpelled_print h.1 _
    simp [DeclaratorSuffix.printAll, DeclaratorSuffix.print, hsize,
      DeclaratorSuffix.AllPlain.allSpelled suffixes h.2]
  | .params params variadic :: suffixes => by
    intro h
    simp [DeclaratorSuffix.printAll, DeclaratorSuffix.print,
      Param.AllPlain.allSpelled variadic params h.1,
      DeclaratorSuffix.AllPlain.allSpelled suffixes h.2]

theorem Param.AllPlain.allSpelled (variadic : Bool) : (params : List Param) →
    Param.AllPlain types params → AllSpelled (Param.printList params variadic)
  | [] => by
    intro _
    cases variadic <;> simp [Param.printList]
  | .mk _ spec d value :: ps => by
    intro h
    have hspec := allSpelled_known h.1.1
    have hd := Declarator.Plain.allSpelled d h.1.2.1
    have hps := Param.AllPlain.allSpelled variadic ps h.2
    rw [Param.printList, Param.print]
    split <;> simp [hspec, hd, hps]

end

end Stepwise
