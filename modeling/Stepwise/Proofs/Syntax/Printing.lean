import Stepwise.Proofs.Syntax.Reading
import Stepwise.Proofs.Token.Scanning
import Stepwise.Syntax.Parse.Statement

/-! # Printing expressions

An expression is printed with parentheses only where an operand is looser than its place in
the grammar asks for. No phrase for the expression is shorter, and the text is parsed as the
expression again, up to spans.
-/

namespace Stepwise

open Lexeme

/-- Lexemes that are a phrase of level `m`, made a phrase of level `n`. -/
def Level.enclose (n m : Level) (ws : List Lexeme) : List Lexeme :=
  if n.rank ≤ m.rank then ws else parens ws

/-- An operator between operands that are printed for the levels where they stand. -/
def Chain.print (op : Chain) (left right : Level → List Lexeme) (n : Level) : List Lexeme :=
  n.enclose op.level (left op.level ++ .symbol op.symbol :: right op.level.next)

mutual

/-- The lexemes of an expression as a phrase of a level. Forms that no phrase has are left out. -/
def Expr.print : Expr → Level → List Lexeme
  | .literal _ (.int value radix unsigned long), _ => [.int value radix unsigned long]
  | .identifier _ name, _ => [.identifier name]
  | .binary _ op left right, n => Chain.print (.binary op) left.print right.print n
  | .logical _ .and left right, n => Chain.print .and left.print right.print n
  | .logical _ .or left right, n => Chain.print .or left.print right.print n
  | .comma _ left right, n => Chain.print .comma left.print right.print n
  | .assign _ op target value, n => n.enclose .assignment
      (target.print .disjunction ++ (BinaryOp.assignSymbol? op).toList.map symbol
        ++ value.print .assignment)
  | .conditional _ c t e, n => n.enclose .assignment
      (c.print .disjunction ++ symbol .question :: t.print .expression
        ++ symbol .colon :: e.print .assignment)
  | .unary _ op operand, n =>
    if op.trails then n.enclose .trailing (operand.print .trailing ++ [symbol op.symbol])
    else n.enclose .unary (symbol op.symbol :: operand.print .unary)
  | .cast _ spec (.mk _ marks reference _ _) operand, n => n.enclose .unary
      (parens (ofType spec marks reference) ++ operand.print .unary)
  | .sizeofType _ spec (.mk _ marks reference _ _), n => n.enclose .unary
      (keyword .sizeofWord :: parens (ofType spec marks reference))
  | .index _ base i, n => n.enclose .trailing
      (base.print .trailing ++ symbol .leftBracket :: i.print .expression
        ++ [symbol .rightBracket])
  | .call _ callee args, n => n.enclose .trailing
      (callee.print .trailing ++ parens ([symbol .comma].intercalate (Expr.printAll args)))
  | .member _ object name throughPointer, n => n.enclose .trailing
      (object.print .trailing
        ++ [symbol (if throughPointer then .arrow else .dot), .identifier name])
  | _, _ => []

/-- The lexemes of the arguments of a call. -/
def Expr.printAll : List Expr → List (List Lexeme)
  | [] => []
  | e :: es => e.print .assignment :: Expr.printAll es

end

theorem Expr.printAll_eq_map (es : List Expr) :
    Expr.printAll es = es.map fun e => e.print .assignment := by
  induction es with
  | nil => rfl
  | cons e es ih => rw [Expr.printAll, ih, List.map_cons]

/-- The text of an expression: its lexemes with blanks between them. -/
def Expr.text (e : Expr) : String := String.ofList (spaced (e.print .expression))

/-- The expressions of integer literals (in one of the `radices`, and of at most 128 bits), names
that are not `types`, operators, casts to built-in types and their sizes, indices, calls and
members. -/
inductive Expr.Plain (types : List String) : Expr → Prop
  | int (span : Span) {value radix : Nat} (unsigned long : Bool) : radix ∈ radices →
    value < pow2 128 → Plain types (.literal span (.int value radix unsigned long))
  | name (span : Span) {name : String} : isName name = true → name ∉ types →
    Plain types (.identifier span name)
  | binary (span : Span) (op : BinaryOp) {left right : Expr} : Plain types left →
    Plain types right → Plain types (.binary span op left right)
  | logical (span : Span) (op : LogicalOp) {left right : Expr} : Plain types left →
    Plain types right → Plain types (.logical span op left right)
  | comma (span : Span) {left right : Expr} : Plain types left → Plain types right →
    Plain types (.comma span left right)
  | assign (span : Span) {op : Option BinaryOp} {target value : Expr} :
    (BinaryOp.assignSymbol? op).isSome = true → Plain types target → Plain types value →
    Plain types (.assign span op target value)
  | conditional (span : Span) {c t e : Expr} : Plain types c → Plain types t → Plain types e →
    Plain types (.conditional span c t e)
  | unary (span : Span) (op : UnaryOp) {operand : Expr} : Plain types operand →
    Plain types (.unary span op operand)
  | cast (span span' : Span) {spec : TypeSpec} (marks : List Bool) (reference : Bool)
    {operand : Expr} : spec.IsBuiltin → Plain types operand →
    Plain types (.cast span spec (.mk span' marks reference .anonymous []) operand)
  | sizeofType (span span' : Span) {spec : TypeSpec} (marks : List Bool) (reference : Bool) :
    spec.IsBuiltin →
    Plain types (.sizeofType span spec (.mk span' marks reference .anonymous []))
  | index (span : Span) {base index : Expr} : Plain types base → Plain types index →
    Plain types (.index span base index)
  | call (span : Span) {callee : Expr} {args : List Expr} : Plain types callee →
    (∀ a ∈ args, Plain types a) → Plain types (.call span callee args)
  | member (span : Span) {object : Expr} {name : String} (throughPointer : Bool) :
    isName name = true → Plain types object →
    Plain types (.member span object name throughPointer)

variable {types : List String} {m n : Level} {e : Expr} {ws : List Lexeme}

theorem Phrase.enclose (h : Phrase types m e ws) (n : Level) :
    Phrase types n e (n.enclose m ws) := by
  unfold Level.enclose
  split
  · next hle => exact h.loosen hle
  · exact (Phrase.parens (h.loosen (Nat.zero_le _))).loosen n.rank_le_rank_primary

theorem Chain.phrase_print (span : Span) (op : Chain) {left right : Expr}
    (hleft : ∀ m, Phrase types m left (left.print m))
    (hright : ∀ m, Phrase types m right (right.print m)) (n : Level) :
    Phrase types n (op.join span left right) (op.print left.print right.print n) :=
  (Phrase.chain span op (hleft _) (hright _)).enclose n

namespace Lexeme

/-- Every lexeme is one that its characters write. -/
def AllSpelled (ws : List Lexeme) : Prop := ∀ l ∈ ws, l.IsSpelled

@[simp] theorem allSpelled_nil : AllSpelled [] := fun _ h => nomatch h

@[simp] theorem allSpelled_cons (l : Lexeme) (ws : List Lexeme) :
    AllSpelled (l :: ws) ↔ l.IsSpelled ∧ AllSpelled ws :=
  List.forall_mem_cons

@[simp] theorem allSpelled_append (ws vs : List Lexeme) :
    AllSpelled (ws ++ vs) ↔ AllSpelled ws ∧ AllSpelled vs :=
  List.forall_mem_append

@[simp] theorem isSpelled_symbol (x : Symbol) : (symbol x).IsSpelled := trivial

@[simp] theorem isSpelled_keyword (k : Keyword) : (keyword k).IsSpelled := trivial

@[simp] theorem isSpelled_identifier (name : String) :
    (identifier name).IsSpelled ↔ isName name = true :=
  Iff.rfl

@[simp] theorem allSpelled_parens (ws : List Lexeme) : AllSpelled (parens ws) ↔ AllSpelled ws := by
  simp [parens]

theorem allSpelled_enclose {m : Level} {ws : List Lexeme} (h : AllSpelled ws) (n : Level) :
    AllSpelled (n.enclose m ws) := by
  unfold Level.enclose
  split
  · exact h
  · exact (allSpelled_parens ws).mpr h

theorem allSpelled_intercalate {wss : List (List Lexeme)} (h : ∀ ws ∈ wss, AllSpelled ws) :
    AllSpelled ([symbol .comma].intercalate wss) := by
  induction wss with
  | nil => exact allSpelled_nil
  | cons ws wss ih =>
    obtain ⟨hws, hwss⟩ := List.forall_mem_cons.mp h
    cases wss with
    | nil => simpa using hws
    | cons vs wss => rw [List.intercalate_cons_cons]; simp [hws, ih hwss]

theorem allSpelled_ofPointers (marks : List Bool) : AllSpelled (marks.flatMap ofPointer) := by
  intro l hl
  obtain ⟨isConst, -, hm⟩ := List.mem_flatMap.mp hl
  have hconst : (specifier "const").IsSpelled := by simp [IsSpelled, specifierWords]
  have hpointer : AllSpelled (ofPointer isConst) := by cases isConst <;> simp [ofPointer, hconst]
  exact hpointer l hm

theorem allSpelled_ofType {spec : TypeSpec} (hspec : spec.IsBuiltin) (marks : List Bool)
    (reference : Bool) : AllSpelled (ofType spec marks reference) := by
  have hspecifiers : AllSpelled (spec.specifiers.map specifier) :=
    List.forall_mem_map.mpr hspec.specifiers
  have hwords : AllSpelled (spec.words.map typeWord) := List.forall_mem_map.mpr hspec.words
  cases reference <;> simp [ofType, hspecifiers, hwords, allSpelled_ofPointers]

end Lexeme

theorem Chain.allSpelled_print (op : Chain) {left right : Level → List Lexeme}
    (hleft : ∀ m, AllSpelled (left m)) (hright : ∀ m, AllSpelled (right m)) (n : Level) :
    AllSpelled (op.print left right n) :=
  allSpelled_enclose (by simp [hleft, hright]) n

namespace Expr.Plain

/-- What is printed for a level is a phrase of it. -/
theorem phrase (h : e.Plain types) (n : Level) : Phrase types n e (e.print n) := by
  induction h generalizing n with
  | int span unsigned long =>
    exact (Phrase.int span _ _ unsigned long).loosen n.rank_le_rank_primary
  | name span _ hname => exact (Phrase.name span hname).loosen n.rank_le_rank_primary
  | binary span op _ _ ihLeft ihRight => exact Chain.phrase_print span (.binary op) ihLeft ihRight n
  | logical span op _ _ ihLeft ihRight =>
    cases op with
    | and => exact Chain.phrase_print span .and ihLeft ihRight n
    | or => exact Chain.phrase_print span .or ihLeft ihRight n
  | comma span _ _ ihLeft ihRight => exact Chain.phrase_print span .comma ihLeft ihRight n
  | assign span hop _ _ ihTarget ihValue =>
    obtain ⟨x, hx⟩ := Option.isSome_iff_exists.mp hop
    rw [Expr.print, hx, Option.toList_some, List.map_singleton, List.append_assoc,
      List.singleton_append]
    exact (Phrase.assign span hx (ihTarget _) (ihValue _)).enclose n
  | conditional span _ _ _ ihC ihT ihE =>
    exact (Phrase.conditional span (ihC _) (ihT _) (ihE _)).enclose n
  | unary span op _ ih =>
    rw [Expr.print]
    split
    · next hop => exact (Phrase.behind span hop (ih _)).enclose n
    · next hop => exact (Phrase.before span (by simpa using hop) (ih _)).enclose n
  | cast span span' marks reference hspec _ ih =>
    exact (Phrase.cast span span' marks reference hspec (ih _)).enclose n
  | sizeofType span span' marks reference hspec =>
    exact (Phrase.sizeofType span span' marks reference hspec).enclose n
  | index span _ _ ihBase ihIndex => exact (Phrase.index span (ihBase _) (ihIndex _)).enclose n
  | @call span callee args _ _ ihCallee ihArgs =>
    let parts := args.map fun a => (a, a.print .assignment)
    have hfst : parts.map Prod.fst = args := by simp [parts, Function.comp_def]
    have hsnd : parts.map Prod.snd = Expr.printAll args := by
      rw [Expr.printAll_eq_map, List.map_map]
      rfl
    have hparts : ∀ p ∈ parts, Phrase types .assignment p.1 p.2 := by
      simpa [parts] using fun a ha => ihArgs a ha .assignment
    have hphrase := (Phrase.call span (ihCallee .trailing) hparts).enclose n
    rwa [hfst, hsnd] at hphrase
  | member span throughPointer _ _ ih =>
    exact (Phrase.member span _ throughPointer (ih _)).enclose n

/-- What is printed can be scanned. -/
theorem allSpelled_print (h : e.Plain types) (n : Level) : AllSpelled (e.print n) := by
  induction h generalizing n with
  | int span unsigned long hradix hvalue =>
    exact (allSpelled_cons _ _).mpr ⟨⟨hradix, hvalue⟩, allSpelled_nil⟩
  | name span hname => simp [Expr.print, hname]
  | binary span op _ _ ihLeft ihRight => exact Chain.allSpelled_print (.binary op) ihLeft ihRight n
  | logical span op _ _ ihLeft ihRight =>
    cases op with
    | and => exact Chain.allSpelled_print .and ihLeft ihRight n
    | or => exact Chain.allSpelled_print .or ihLeft ihRight n
  | comma span _ _ ihLeft ihRight => exact Chain.allSpelled_print .comma ihLeft ihRight n
  | @assign span op _ _ _ _ _ ihTarget ihValue =>
    refine allSpelled_enclose ?_ n
    cases BinaryOp.assignSymbol? op <;> simp [ihTarget, ihValue]
  | conditional span _ _ _ ihC ihT ihE => exact allSpelled_enclose (by simp [ihC, ihT, ihE]) n
  | unary span op _ ih =>
    rw [Expr.print]
    split <;> exact allSpelled_enclose (by simp [ih]) n
  | cast span span' marks reference hspec _ ih =>
    exact allSpelled_enclose (by simp [ih, allSpelled_ofType hspec]) n
  | sizeofType span span' marks reference hspec =>
    exact allSpelled_enclose (by simp [allSpelled_ofType hspec]) n
  | index span _ _ ihBase ihIndex => exact allSpelled_enclose (by simp [ihBase, ihIndex]) n
  | call span _ _ ihCallee ihArgs =>
    have hargs := allSpelled_intercalate
      (List.forall_mem_map.mpr fun a ha => ihArgs a ha .assignment)
    rw [← Expr.printAll_eq_map] at hargs
    exact allSpelled_enclose (by simp [ihCallee, hargs]) n
  | member span throughPointer hname _ ih =>
    exact allSpelled_enclose (by simp [ih, hname]) n

end Expr.Plain

namespace Level

theorem enclose_of_le (h : n.rank ≤ m.rank) (ws : List Lexeme) : n.enclose m ws = ws := if_pos h

theorem length_enclose_mono {k : Level} (h : m.rank ≤ n.rank) (ws : List Lexeme) :
    (m.enclose k ws).length ≤ (n.enclose k ws).length := by
  unfold enclose
  split
  · split
    · exact Nat.le_refl _
    · simp only [parens, List.length_append, List.length_cons]
      omega
  · next hm => exact Nat.le_of_eq (by rw [if_neg fun hn => hm (Nat.le_trans h hn)])

theorem length_enclose_le (n m : Level) (ws : List Lexeme) :
    (n.enclose m ws).length ≤ ws.length + 2 := by
  unfold enclose
  split
  · omega
  · simp [parens]

end Level

/-- An expression has a level of its own, and is enclosed for the tighter ones. -/
theorem Expr.exists_print_eq (e : Expr) : ∃ m ws, ∀ n, e.print n = n.enclose m ws := by
  have hprimary (ws : List Lexeme) (n : Level) : ws = n.enclose .primary ws :=
    (Level.enclose_of_le n.rank_le_rank_primary ws).symm
  cases e with
  | literal _ value => cases value <;> exact ⟨.primary, _, hprimary _⟩
  | identifier => exact ⟨.primary, _, hprimary _⟩
  | qualified => exact ⟨.primary, _, hprimary _⟩
  | sizeofExpr => exact ⟨.primary, _, hprimary _⟩
  | list => exact ⟨.primary, _, hprimary _⟩
  | logical _ op => cases op <;> exact ⟨_, _, fun _ => rfl⟩
  | unary _ op => cases op <;> exact ⟨_, _, fun _ => rfl⟩
  | cast _ _ target => cases target; exact ⟨_, _, fun _ => rfl⟩
  | sizeofType _ _ target => cases target; exact ⟨_, _, fun _ => rfl⟩
  | _ => exact ⟨_, _, fun _ => rfl⟩

theorem Expr.length_print_mono (e : Expr) (h : m.rank ≤ n.rank) :
    (e.print m).length ≤ (e.print n).length := by
  obtain ⟨k, ws, heq⟩ := e.exists_print_eq
  rw [heq, heq]
  exact Level.length_enclose_mono h ws

theorem Expr.length_print_le (e : Expr) (n : Level) :
    (e.print n).length ≤ (e.print .expression).length + 2 := by
  obtain ⟨k, ws, heq⟩ := e.exists_print_eq
  rw [heq, heq, Level.enclose_of_le (n := .expression) (Nat.zero_le _)]
  exact Level.length_enclose_le n k ws

theorem Expr.length_printAll_le {args : List (Expr × List Lexeme)}
    (h : ∀ a ∈ args, (a.1.print .assignment).length ≤ a.2.length) :
    ([symbol .comma].intercalate (Expr.printAll (args.map Prod.fst))).length ≤
      ([symbol .comma].intercalate (args.map Prod.snd)).length := by
  induction args with
  | nil => exact Nat.le_refl _
  | cons a args ih =>
    obtain ⟨ha, hargs⟩ := List.forall_mem_cons.mp h
    cases args with
    | nil => simpa [Expr.printAll] using ha
    | cons b args =>
      have hle := ih hargs
      rw [List.map_cons, Expr.printAll, List.map_cons] at hle ⊢
      rw [Expr.printAll, List.map_cons, List.map_cons, List.intercalate_cons_cons,
        List.intercalate_cons_cons]
      simp only [List.length_append]
      omega

theorem Chain.length_print_le (op : Chain) (left right : Level → List Lexeme) {ws vs : List Lexeme}
    (hleft : (left op.level).length ≤ ws.length)
    (hright : (right op.level.next).length ≤ vs.length) :
    (op.print left right op.level).length ≤ (ws ++ .symbol op.symbol :: vs).length := by
  rw [Chain.print, Level.enclose_of_le (Nat.le_refl _)]
  simp only [List.length_append, List.length_cons]
  omega

/-- No phrase of an expression is shorter than what is printed. -/
theorem Phrase.length_print_le (h : Phrase types n e ws) : (e.print n).length ≤ ws.length := by
  induction h with
  | int => exact Nat.le_refl _
  | name => exact Nat.le_refl _
  | @parens e ws _ ih =>
    have hle := e.length_print_le .primary
    simp only [Lexeme.parens, List.length_append, List.length_cons, List.length_nil]
    omega
  | @next n e ws _ ih => exact Nat.le_trans (e.length_print_mono n.rank_le_rank_next) ih
  | chain _ op _ _ ihLeft ihRight =>
    cases op with
    | comma => exact Chain.length_print_le .comma _ _ ihLeft ihRight
    | or => exact Chain.length_print_le .or _ _ ihLeft ihRight
    | and => exact Chain.length_print_le .and _ _ ihLeft ihRight
    | binary op => exact Chain.length_print_le (.binary op) _ _ ihLeft ihRight
  | call _ _ _ ih ihArgs =>
    have hargs := Expr.length_printAll_le ihArgs
    rw [Expr.print, Level.enclose_of_le (Nat.le_refl _)]
    simp only [Lexeme.parens, List.length_append, List.length_cons]
    omega
  | assign _ hop _ _ ihTarget ihValue =>
    rw [Expr.print, Level.enclose_of_le (Nat.le_refl _), hop]
    simp only [Option.toList_some, List.map_singleton, List.length_append, List.length_cons,
      List.length_nil]
    omega
  | behind _ hop _ ih =>
    rw [Expr.print, if_pos hop, Level.enclose_of_le (Nat.le_refl _)]
    simp only [List.length_append, List.length_cons]
    omega
  | before _ hop _ ih =>
    rw [Expr.print, hop, if_neg (by decide), Level.enclose_of_le (Nat.le_refl _)]
    simp only [List.length_cons]
    omega
  | sizeofType => exact Nat.le_refl _
  | index | member | cast | conditional =>
    rw [Expr.print, Level.enclose_of_le (Nat.le_refl _)]
    simp only [List.length_append, List.length_cons]
    omega

/-- Scanning and parsing undo printing: the text of an expression is consumed and gives the
expression, up to spans. -/
theorem Expr.parse_text (h : e.Plain types) :
    ∃ tokens, scan e.text = ⟨[], .ok tokens⟩ ∧
      ∃ p, Parse.expression { Tokens.ofList [] tokens with typeNames := types } = .ok p ∧
        p.value.bare = e.bare ∧ p.next.rest = [] := by
  obtain ⟨tokens, hscan, hlexemes⟩ := scan_spaced (h.allSpelled_print .expression)
  refine ⟨tokens, hscan, ?_⟩
  let s : Tokens := { Tokens.ofList [] tokens with typeNames := types }
  have hs : s.Holds types (e.print .expression ++ []) := by
    refine ⟨?_, rfl⟩
    show tokens.dropLast.map Token.lexeme = _
    rw [List.map_dropLast, hlexemes, List.dropLast_concat, List.append_nil]
  obtain ⟨e', t, ht, heq, hbare, hh⟩ :=
    (h.phrase .expression).reads.whole s [] hs (Level.stops_nil .expression)
  exact ⟨⟨e', t, ht⟩, heq, hbare, List.map_eq_nil_iff.mp hh.lexemes⟩

/-- Parentheses around a sum that is a factor, none around a negated factor. -/
theorem Expr.parse_text_product :
    ∃ tokens, scan "( a + 0x1f ) * - b" = ⟨[], .ok tokens⟩ ∧
      ∃ p, Parse.expression { Tokens.ofList [] tokens with typeNames := ["FILE"] } = .ok p ∧
        p.value.bare = .binary default .mul
          (.binary default .add (.identifier default "a")
            (.literal default (.int 31 16 false false)))
          (.unary default .neg (.identifier default "b")) ∧
        p.next.rest = [] := by
  have ha : (Expr.identifier default "a").Plain ["FILE"] := .name default (by decide) (by decide)
  have hb : (Expr.identifier default "b").Plain ["FILE"] := .name default (by decide) (by decide)
  have hlit : (Expr.literal default (.int 31 16 false false)).Plain ["FILE"] :=
    .int default false false (by decide) (by decide)
  have h := Expr.parse_text
    (.binary default .mul (.binary default .add ha hlit) (.unary default .neg hb))
  have htext : (Expr.binary default .mul (.binary default .add (.identifier default "a")
      (.literal default (.int 31 16 false false)))
      (.unary default .neg (.identifier default "b"))).text = "( a + 0x1f ) * - b" := by decide
  rw [htext] at h
  exact h

end Stepwise
