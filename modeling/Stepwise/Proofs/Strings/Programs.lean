import Stepwise.Proofs.Syntax.Declarators
import Stepwise.Proofs.Token.Layout
import Stepwise.Proofs.Token.Quoted
import Stepwise.Proofs.Token.Scanning

/-! # Programs with written strings

A program that calls one library function. Adjacent literals among the arguments are parsed as
one string, whatever the pieces are.
-/

namespace Stepwise

/-! ## Written strings

A string is written as adjacent literals. Between the quotes stand its characters, with escapes
for those that a literal cannot hold. However the string is split, the scanner gives back
the pieces.
-/

section Literals

namespace Text

theorem charOfCode?_toNat (c : Char) : charOfCode? c.toNat = some c := by
  have hvalid : c.toNat.isValidChar := c.valid
  rw [charOfCode?, if_pos hvalid, Char.ofNat_toNat]

/-- The letter after the backslash, for characters that a literal cannot hold. -/
def escapeLetter? : Char → Option Char
  | '"' => some '"'
  | '\\' => some '\\'
  | '\n' => some 'n'
  | _ => none

/-- A character as it is written in a string literal. -/
def escaped (c : Char) : List Char :=
  match escapeLetter? c with
  | some letter => ['\\', letter]
  | none => [c]

/-- The string literal of a text. -/
def literal (cs : List Char) : List Char := '"' :: cs.flatMap escaped ++ ['"']

theorem simpleEscape?_of_escapeLetter? {c letter : Char} (h : escapeLetter? c = some letter) :
    Lexeme.simpleEscape? letter = some c.toNat := by
  unfold escapeLetter? at h
  split at h <;> cases h <;> rfl

theorem notMem_of_escapeLetter? {c : Char} (h : escapeLetter? c = none) : c ∉ ['"', '\n', '\\'] := by
  intro hm
  simp only [List.mem_cons, List.not_mem_nil, or_false] at hm
  rcases hm with rfl | rfl | rfl <;> cases h

end Text

/-- A piece of a written string: blanks, and a literal after them. -/
structure StringPiece where
  blanks : List Char
  text : List Char
  white : ∀ c ∈ blanks, c ∈ [' ', '\t', '\r', '\n']

namespace StringPiece

def chars (p : StringPiece) : List Char := p.blanks ++ Text.literal p.text

def lexeme (p : StringPiece) : Lexeme := .string (String.ofList p.text) .narrow

end StringPiece

namespace Lexeme

variable {r start : Reader} {width : CharWidth} {cs tail : List Char}

theorem gives_escape {c : Char} {code : Nat} (hrest : r.rest = c :: cs)
    (hcode : simpleEscape? c = some code) : Gives (escape r) code (r.drop 1) := by
  rcases r with ⟨_, p⟩
  subst hrest
  simp only [escape, hcode]
  exact ⟨_, rfl, rfl, rfl⟩

/-- The rest of a string literal is read up to its closing quote, escapes included. -/
theorem gives_stringBody_escaped {text : List Char} {fewer}
    (hrest : r.rest = cs.flatMap Text.escaped ++ '"' :: tail) :
    Gives (stringBody start width r text fewer) (.string (String.ofList (text.reverse ++ cs)) width)
      (r.drop ((cs.flatMap Text.escaped).length + 1)) := by
  induction cs generalizing r text with
  | nil =>
    rw [List.flatMap_nil, List.nil_append] at hrest
    rw [List.append_nil]
    exact gives_stringBody.mpr ⟨'"', by rw [hrest]; rfl, .inl ⟨rfl, rfl, rfl⟩⟩
  | cons c cs ih =>
    rw [List.flatMap_cons, List.append_assoc] at hrest
    have htext : text.reverse ++ c :: cs = (c :: text).reverse ++ cs := by simp
    rw [List.flatMap_cons, List.length_append, Nat.add_assoc, ← Reader.drop_drop, htext]
    have hdrop (n : Nat) (hn : (Text.escaped c).length = n) :
        (r.drop n).rest = cs.flatMap Text.escaped ++ '"' :: tail := by
      rw [Reader.rest_drop, hrest, ← hn, List.drop_left]
    have hfewer (n : Nat) : (r.drop n).rest.length < start.rest.length :=
      Nat.lt_of_le_of_lt (Reader.length_drop_le r n) fewer
    cases hletter : Text.escapeLetter? c with
    | some letter =>
      have hescaped : Text.escaped c = ['\\', letter] := by rw [Text.escaped, hletter]
      have hslash : r.rest = '\\' :: letter :: (cs.flatMap Text.escaped ++ '"' :: tail) := by
        rw [hrest, hescaped]
        rfl
      have hone : (r.drop 1).rest = letter :: (cs.flatMap Text.escaped ++ '"' :: tail) := by
        rw [Reader.rest_drop, hslash]
        rfl
      have hescape := gives_escape hone (Text.simpleEscape?_of_escapeLetter? hletter)
      rw [Reader.drop_drop] at hescape
      have hbody := @ih (r.drop 2) (c :: text) (hfewer 2) (hdrop 2 (by rw [hescaped]; rfl))
      refine gives_stringBody.mpr ⟨'\\', by rw [hslash]; rfl, .inr (.inl ⟨rfl, _, _, hfewer 2, hescape, ?_⟩)⟩
      rw [Text.charOfCode?_toNat, Option.getD_some, hescaped]
      exact hbody
    | none =>
      have hescaped : Text.escaped c = [c] := by rw [Text.escaped, hletter]
      have hbody := @ih (r.drop 1) (c :: text) (hfewer 1) (hdrop 1 (by rw [hescaped]; rfl))
      refine gives_stringBody.mpr ⟨c, by rw [hrest, hescaped]; rfl,
        .inr (.inr ⟨Text.notMem_of_escapeLetter? hletter, hfewer 1, ?_⟩)⟩
      rw [hescaped]
      exact hbody

/-- A literal is read as its text. -/
theorem gives_next_literal (hr : r.rest ≠ []) (hrest : r.rest = Text.literal cs ++ tail) :
    Gives (next r hr) (.string (String.ofList cs) .narrow) (r.drop (Text.literal cs).length) := by
  have hquote : r.rest = '"' :: (cs.flatMap Text.escaped ++ '"' :: tail) := by
    rw [hrest, Text.literal]
    simp
  have hlen : (Text.literal cs).length = 1 + ((cs.flatMap Text.escaped).length + 1) := by
    simp [Text.literal, Nat.add_comm]
  have hbody : Gives
      (stringBody r .narrow (r.drop 1) [] (Reader.length_drop_lt Nat.zero_lt_one hr))
      (.string (String.ofList cs) .narrow)
      ((r.drop 1).drop ((cs.flatMap Text.escaped).length + 1)) :=
    gives_stringBody_escaped (by rw [Reader.rest_drop, hquote]; rfl)
  rw [Reader.drop_drop, ← hlen] at hbody
  have hhead : r.rest.head hr = '"' := by simp only [hquote, List.head_cons]
  simp only [next, hhead, if_true]
  exact hbody

end Lexeme

/-- Wherever a text goes on with the characters, they are scanned as the lexemes. -/
def Scans (cs : List Char) (ls : List Lexeme) : Prop :=
  ∀ (r : Reader) (tail : List Char) (ts : List Token), r.rest = cs ++ tail →
    Scan.from (r.drop cs.length) = ⟨[], .ok ts⟩ →
    ∃ us, Scan.from r = ⟨[], .ok (us ++ ts)⟩ ∧ us.map Token.lexeme = ls

namespace Scans

variable {cs ds : List Char} {ls ms : List Lexeme}

theorem nil : Scans [] [] := fun _ _ _ _ hts => ⟨[], hts, rfl⟩

theorem append (hcs : Scans cs ls) (hds : Scans ds ms) : Scans (cs ++ ds) (ls ++ ms) := by
  intro r tail ts hrest hts
  rw [List.append_assoc] at hrest
  rw [List.length_append, ← Reader.drop_drop] at hts
  have hdrop : (r.drop cs.length).rest = ds ++ tail := by
    rw [Reader.rest_drop, hrest, List.drop_left]
  obtain ⟨vs, hvs, hmap⟩ := hds _ tail ts hdrop hts
  obtain ⟨us, hus, hmap'⟩ := hcs r (ds ++ tail) (vs ++ ts) hrest hvs
  exact ⟨us ++ vs, by rw [hus, List.append_assoc], by rw [List.map_append, hmap, hmap']⟩

theorem flatMap {α : Type} {f : α → List Char} {g : α → Lexeme} {as : List α}
    (h : ∀ a ∈ as, Scans (f a) [g a]) : Scans (as.flatMap f) (as.map g) := by
  induction as with
  | nil => exact nil
  | cons a as ih =>
    obtain ⟨ha, has⟩ := List.forall_mem_cons.mp h
    exact ha.append (ih has)

theorem blanks (hcs : ∀ c ∈ cs, c ∈ [' ', '\t', '\r', '\n']) : Scans cs [] := by
  induction cs with
  | nil => exact nil
  | cons c cs ih =>
    obtain ⟨hc, hcs⟩ := List.forall_mem_cons.mp hcs
    have hone : Scans [c] [] := by
      intro r tail ts hrest hts
      exact ⟨[], by rw [Scan.from_white hrest hc]; exact hts, rfl⟩
    exact hone.append (ih hcs)

/-- A spelled lexeme is scanned off its characters and a blank. -/
theorem spelled {l : Lexeme} (hl : l.IsSpelled) : Scans (l.chars ++ [' ']) [l] := by
  intro r tail ts hrest hts
  rw [List.append_assoc] at hrest
  rw [List.length_append, ← Reader.drop_drop] at hts
  have hblank : (r.drop l.chars.length).rest = ' ' :: tail := by
    rw [Reader.rest_drop, hrest, List.drop_left]
    rfl
  have hbreaks : Text.Breaks (' ' :: tail) := fun c hc => (Option.some.inj hc).symm
  have hfrom := (Scan.from_white hblank (by decide)).trans hts
  exact ⟨[_], Scan.from_of_spells (Lexeme.spells_chars hl) hrest hbreaks hfrom, rfl⟩

/-- A literal is scanned as its text. -/
theorem literal (cs : List Char) :
    Scans (Text.literal cs) [.string (String.ofList cs) .narrow] := by
  intro r tail ts hrest hts
  have hr : r.rest ≠ [] := by simp [hrest, Text.literal]
  have hopens : Lexeme.OpensLexeme r.rest := by
    rw [hrest]
    exact ⟨by decide, fun h => absurd h (by decide)⟩
  obtain ⟨x, hx, hvalue, hnext⟩ := Lexeme.gives_next_literal hr hrest
  refine ⟨[⟨x.value, .between r.position x.next.position⟩], ?_, by rw [← hvalue]; rfl⟩
  rw [Scan.from_opens hr hopens, hx, Scan.ofReading, hnext, hts]
  rfl

/-- The pieces of a written string are scanned as themselves. -/
theorem pieces (ps : List StringPiece) :
    Scans (ps.flatMap StringPiece.chars) (ps.map StringPiece.lexeme) :=
  flatMap fun p _ => (blanks p.white).append (literal p.text)

end Scans

end Literals

/-! ## The parser joins the pieces -/

open Lexeme

namespace StringPiece

/-- The text that the pieces have together. -/
def joined (ps : List StringPiece) : List Char := ps.flatMap text

/-- The characters of a source that write the pieces. -/
def written (ps : List StringPiece) : String := String.ofList (ps.flatMap chars)

/-- The expression that the pieces are parsed as. -/
def expr (ps : List StringPiece) : Expr :=
  .literal default (.string (String.ofList (joined ps)) .narrow)

end StringPiece

variable {types : List String} {s s₀ : Tokens} {ls : List Lexeme}

/-- The pieces after the first are joined to the text so far. -/
theorem Tokens.stringTail_pieces {ps : List StringPiece} {cs : List Char} {l : Lexeme}
    (hl : l.string? = none) (h : s.Shorter s₀)
    (hs : s.Holds types (ps.map StringPiece.lexeme ++ l :: ls)) :
    ∃ t ht, stringTail s₀ .narrow (String.ofList cs) s h =
      ⟨.string (String.ofList (cs ++ StringPiece.joined ps)) .narrow, t, ht⟩ ∧
      t.Holds types (l :: ls) := by
  induction ps generalizing s cs with
  | nil =>
    refine ⟨s, h, ?_, hs⟩
    rw [stringTail, hs.take?_cons_eq_none hl, StringPiece.joined, List.flatMap_nil, List.append_nil]
  | cons p ps ih =>
    obtain ⟨s₁, h₁, heq, hs₁⟩ := hs.take?_eq_some (f := Lexeme.string?) rfl
    obtain ⟨t, ht, htail, hh⟩ := @ih s₁ (cs ++ p.text) (h₁.trans h) hs₁
    refine ⟨t, ht, ?_, hh⟩
    rw [stringTail, heq]
    simp only
    rw [← String.ofList_append, htail, List.append_assoc]
    rfl

/-- Adjacent literals are one primary expression. -/
theorem Parse.primary_pieces {ps : List StringPiece} (hps : ps ≠ []) {l : Lexeme}
    (hl : l.string? = none) (hs : s.Holds types (ps.map StringPiece.lexeme ++ l :: ls)) :
    Yields types (Parse.primary s) (StringPiece.expr ps) (l :: ls) := by
  cases ps with
  | nil => exact absurd rfl hps
  | cons p ps =>
    have hliteral : s.take? Lexeme.literal? = none := hs.take?_cons_eq_none rfl
    obtain ⟨s₁, h₁, heq, hs₁⟩ := hs.take?_eq_some (f := Lexeme.string?) rfl
    obtain ⟨t, ht, htail, hh⟩ := Tokens.stringTail_pieces hl h₁ hs₁
    refine ⟨.literal (s.spanTo t) (.string (String.ofList (StringPiece.joined (p :: ps))) .narrow),
      t, ht, ?_, rfl, hh⟩
    rw [Parse.primary, Tokens.literal?, hliteral, heq]
    simp only
    rw [htail]
    rfl

namespace Yields

variable {e : Expr}

/-- A loop yields what the next level yields, where the lexemes stop it. -/
theorem of_next {n : Level} (hn : n.loops = true) (h : Yields types (n.next.parse s) e ls)
    (hstop : n.Stops ls) : Yields types (n.parse s) e ls := by
  obtain ⟨e', t, ht, heq, hbare, hh⟩ := h
  refine ⟨e', t, ht, ?_, hbare, hh⟩
  rw [Level.parse_of_loops hn, heq, Attempt.ok_bind]
  exact Level.grow_of_stops hh hstop e' ht

/-- A unary expression is an operand of every binary operator. -/
theorem of_unary {n : Level} (h : Yields types (Parse.unary s) e ls)
    (hn : Level.disjunction.rank ≤ n.rank ∧ n.rank ≤ Level.unary.rank)
    (hstop : Level.disjunction.Stops ls) : Yields types (n.parse s) e ls := by
  obtain ⟨hlow, hhigh⟩ := hn
  by_cases heq : n.rank = Level.unary.rank
  · obtain rfl := Level.rank_injective heq
    exact h
  · have hloops : n.loops = true := by
      cases n <;> first | rfl | exact absurd rfl heq | exact absurd hlow (by decide) |
        exact absurd hhigh (by decide)
    have hnext := Level.rank_next (n := n) (by rintro rfl; exact absurd hhigh (by decide))
    exact of_next hloops (of_unary h ⟨by omega, by omega⟩ hstop) (hstop.mono hlow)
termination_by Level.unary.rank - n.rank

/-- A unary expression is an assignment, where that stops. -/
theorem assignment_of_unary (h : Yields types (Parse.unary s) e ls)
    (hstop : Level.assignment.Stops ls) : Yields types (Parse.assignment s) e ls := by
  obtain ⟨e', t, ht, heq, hbare, hh⟩ :=
    of_unary (n := .disjunction) h ⟨Nat.le_refl _, by decide⟩ hstop.next
  have hquestion : t.accept? .question = none :=
    hh.accept?_eq_none (hstop.ne_symbol rfl (Nat.le_refl _))
  exact ⟨e', t, ht, Parse.assignment_of_conditional (Parse.conditional_of_disjunction heq hquestion)
    hh hstop, hbare, hh⟩

end Yields

/-- Adjacent literals are an operand. -/
theorem Parse.unary_pieces {ps : List StringPiece} (hps : ps ≠ []) {x : Symbol}
    (hs : s.Holds types (ps.map StringPiece.lexeme ++ symbol x :: ls))
    (hstop : Level.trailing.Stops (symbol x :: ls)) :
    Yields types (Parse.unary s) (StringPiece.expr ps) (symbol x :: ls) := by
  have htrailing : Yields types (Parse.trailing s) (StringPiece.expr ps) (symbol x :: ls) :=
    Yields.of_next (n := .trailing) rfl (Parse.primary_pieces hps rfl hs) hstop
  obtain ⟨e, t, ht, heq, hbare, hh⟩ := htrailing
  refine ⟨e, t, ht, ?_, hbare, hh⟩
  cases ps with
  | nil => exact absurd rfl hps
  | cons p ps =>
    have hoperator : s.take? (fun l => l.symbol?.bind UnaryOp.ofLeadingSymbol?) = none :=
      hs.take?_cons_eq_none rfl
    have hcast : s.accept? .leftParen = none := hs.accept?_cons_eq_none rfl
    have hsizeof : s.acceptKeyword? .sizeofWord = none := hs.take?_cons_eq_none rfl
    rw [Parse.unary]
    simp only [hoperator, hcast, ite_self, hsizeof]
    exact heq

/-- Adjacent literals are an argument. -/
theorem readsArgument_pieces {ps : List StringPiece} (hps : ps ≠ []) :
    ReadsArgument types (StringPiece.expr ps) (ps.map StringPiece.lexeme) where
  whole s x ls hx hs := by
    have hstop := Level.stops_of_endsArgument hx ls
    exact (Parse.unary_pieces hps hs (hstop.mono (by decide))).assignment_of_unary hstop
  opens := by
    cases ps with
    | nil => exact absurd rfl hps
    | cons p ps => exact ⟨p.lexeme, ps.map StringPiece.lexeme, rfl, nofun⟩

/-- The size of adjacent literals is an argument. -/
theorem readsArgument_size {ps : List StringPiece} (hps : ps ≠ []) :
    ReadsArgument types (.sizeofExpr default (StringPiece.expr ps))
      (keyword .sizeofWord :: ps.map StringPiece.lexeme) where
  whole s x ls hx hs := by
    have hstop := Level.stops_of_endsArgument hx ls
    refine Yields.assignment_of_unary ?_ hstop
    have hoperator : s.take? (fun l => l.symbol?.bind UnaryOp.ofLeadingSymbol?) = none :=
      hs.take?_cons_eq_none rfl
    have hcast : s.accept? .leftParen = none := hs.accept?_cons_eq_none rfl
    obtain ⟨s₁, h₁, heq₁, hs₁⟩ : ∃ t ht, s.acceptKeyword? .sizeofWord = some ⟨(), t, ht⟩ ∧ _ :=
      hs.take?_eq_some rfl
    have hparen : s₁.accept? .leftParen = none := by
      cases ps with
      | nil => exact absurd rfl hps
      | cons p ps => exact hs₁.accept?_cons_eq_none rfl
    obtain ⟨e, t, ht, heq, hbare, hh⟩ := Parse.unary_pieces hps hs₁ (hstop.mono (by decide))
    refine ⟨.sizeofExpr (s.spanTo t) e, t, ht.trans h₁, ?_, by simp only [Expr.bare, hbare], hh⟩
    rw [Parse.unary]
    simp only [hoperator, hcast, ite_self, heq₁, hparen, since_none, heq, since_ok, Attempt.ok_bind]
  opens := ⟨_, _, rfl, nofun⟩

/-! ## The program of a call -/

/-- The text of a program that includes `cstdio` and whose `main` calls a function. -/
def Program.callText (name args : String) : String :=
  "#include <cstdio>\nint main ( ) \x7b " ++ name ++ " ( " ++ args ++ " ) ; return 0 ; \x7d"

namespace Lexeme

/-- The lexemes up to the call. -/
def opening : List Lexeme :=
  [typeWord "int", identifier "main", symbol .leftParen, symbol .rightParen, symbol .leftBrace]

/-- The lexemes after the arguments of the call. -/
def closing : List Lexeme :=
  [symbol .rightParen, symbol .semicolon, keyword .returnWord, int 0 10 false false,
    symbol .semicolon, symbol .rightBrace]

theorem allSpelled_opening : AllSpelled opening := by
  simp only [AllSpelled, opening, List.forall_mem_cons, IsSpelled, List.not_mem_nil, false_implies,
    implies_true, and_true]
  decide

theorem allSpelled_closing : AllSpelled closing := by
  simp only [AllSpelled, closing, List.forall_mem_cons, IsSpelled, List.not_mem_nil, false_implies,
    implies_true, and_true, true_and]
  decide

end Lexeme

namespace Program

/-- The directive of the program. -/
def directive : List Char := '#' :: "include <cstdio>".toList ++ ['\n']

/-- The characters between the directive and what closes the call. -/
def middle (name args : String) : List Char :=
  (opening.flatMap fun l => l.chars ++ [' ']) ++ ((name.toList ++ [' ']) ++
    (((symbol .leftParen).chars ++ [' ']) ++ (args.toList ++ [' '])))

theorem toList_callText (name args : String) :
    (callText name args).toList = directive ++ (middle name args ++ spaced closing) := by
  have hopening : "#include <cstdio>\nint main ( ) \x7b ".toList =
      directive ++ opening.flatMap fun l => l.chars ++ [' '] := by decide +kernel
  have hparen : " ( ".toList = [' '] ++ ((symbol .leftParen).chars ++ [' ']) := by decide +kernel
  have hclosing : " ) ; return 0 ; \x7d".toList = [' '] ++ spaced closing := by decide +kernel
  have happend (a b c d e : String) : (a ++ b ++ c ++ d ++ e).toList =
      a.toList ++ (b.toList ++ (c.toList ++ (d.toList ++ e.toList))) := by
    simp only [String.toList_append, List.append_assoc]
  refine (happend _ _ _ _ _).trans ?_
  rw [hopening, hparen, hclosing, middle]
  simp only [List.append_assoc]

theorem scans_middle {name args : String} (hname : isName name = true)
    (hargs : Scans args.toList ls) :
    Scans (middle name args) (opening ++ identifier name :: symbol .leftParen :: ls) := by
  have hopening : Scans (opening.flatMap fun l => l.chars ++ [' ']) opening := by
    have h := Scans.flatMap (g := id) fun l hl => Scans.spelled (allSpelled_opening l hl)
    rwa [List.map_id] at h
  have hcallee : Scans (name.toList ++ [' ']) [identifier name] :=
    .spelled (l := identifier name) hname
  have hparen : Scans ((symbol .leftParen).chars ++ [' ']) [symbol .leftParen] := .spelled trivial
  have hblank : Scans [' '] [] := .blanks (by simp)
  have h := hopening.append (hcallee.append (hparen.append (hargs.append hblank)))
  rwa [List.append_nil] at h

/-- The program is scanned as its lexemes. -/
theorem scan_callText {name args : String} (hname : isName name = true)
    (hargs : Scans args.toList ls) :
    ∃ ts, scan (callText name args) = ⟨["cstdio"], .ok ts⟩ ∧ ts.map Token.lexeme =
      opening ++ identifier name :: symbol .leftParen :: ls ++ closing ++ [.endOfFile] := by
  let r : Reader := .ofText (callText name args)
  have hrest : r.rest = directive ++ (middle name args ++ spaced closing) :=
    toList_callText name args
  have hmiddle : (r.drop directive.length).rest = middle name args ++ spaced closing := by
    rw [Reader.rest_drop, hrest, List.drop_left]
  have hclosing : ((r.drop directive.length).drop (middle name args).length).rest =
      spaced closing := by
    rw [Reader.rest_drop, hmiddle, List.drop_left]
  obtain ⟨ts, hts, hmap⟩ := Scan.from_spaced allSpelled_closing hclosing
  obtain ⟨us, hus, hmap'⟩ := scans_middle hname hargs _ _ ts hmiddle hts
  refine ⟨us ++ ts, ?_, by rw [List.map_append, hmap, hmap', ← List.append_assoc]⟩
  have hdirective : Separator directive := .directive (by decide)
  have hnames : Scan.namesOf directive = ["cstdio"] := by decide +kernel
  rw [scan, Scan.from_separator hdirective hrest, hus, hnames]
  rfl

end Program

theorem Tokens.Holds.atEnd_eq {l : Lexeme} (h : s.Holds types (l :: ls)) : s.atEnd = false := by
  obtain ⟨rest, finish, previous, typeNames⟩ := s
  cases rest with
  | nil => cases h.lexemes
  | cons t ts => rfl

namespace Parse

variable {e : Expr}

/-- A statement that is an expression, which begins with a name and a parenthesis. -/
theorem statement_call {name : String} {ws : List Lexeme} (hname : name ∉ types)
    (hread : Reads types .trailing e (identifier name :: symbol .leftParen :: ws))
    (hs : s.Holds types (identifier name :: symbol .leftParen :: ws ++ symbol .semicolon :: ls)) :
    ∃ span e' t ht, statement s = .ok ⟨.expression span (some e'), t, ht⟩ ∧ e'.bare = e.bare ∧
      t.Holds types ls := by
  have hbrace : s.sees .leftBrace = false := hs.sees_eq _
  have hdecl : s.peek.declKeyword?.isSome = false := by rw [hs.peek_eq]; rfl
  have hkeyword : s.take? Lexeme.stmtKeyword? = none := hs.take?_cons_eq_none rfl
  have hlabel : s.label? = none := by
    obtain ⟨s₁, h₁, heq, hs₁⟩ := hs.take?_eq_some (f := Lexeme.identifier?) rfl
    have hcolon : s₁.accept? .colon = none := hs₁.accept?_cons_eq_none rfl
    rw [Tokens.label?, heq]
    simp only [hcolon, since_none]
  have hstarts : s.startsDeclaration = false := by
    have htype : s.isType name = false := by
      rw [Tokens.isType, hs.typeNames]
      simpa using hname
    rw [Tokens.startsDeclaration, hs.peek_eq]
    simp only [htype, Bool.false_and]
  have hempty : s.accept? .semicolon = none := hs.accept?_cons_eq_none rfl
  have hstop (n : Level) : n.Stops (symbol .semicolon :: ls) := Level.stops_of_joins?_eq_none rfl
  have hunary : Yields types (unary s) e (symbol .semicolon :: ls) := by
    rw [hs.unary_eq .name]
    exact hread.whole s _ hs (hstop .trailing)
  obtain ⟨e', s₁, h₁, hexpression, hbare, hs₁⟩ : Yields types (expression s) e _ :=
    .of_next (n := .expression) rfl (hunary.assignment_of_unary (hstop .assignment))
      (hstop .expression)
  obtain ⟨t, ht, heq', hh⟩ := hs₁.expect_eq "after expression"
  refine ⟨s.spanTo t, e', t, ht.trans h₁, ?_, hbare, hh⟩
  rw [statement]
  simp only [hbrace, hdecl, hkeyword, hlabel, hstarts, hempty, hexpression, heq', since_ok,
    Attempt.ok_bind, Bool.false_eq_true, if_false]

/-- A statement that returns a value. -/
theorem statement_return {l : Lexeme} {ws : List Lexeme} (hl : l ≠ symbol .semicolon)
    (hread : Reads types .expression e (l :: ws))
    (hs : s.Holds types (keyword .returnWord :: l :: ws ++ symbol .semicolon :: ls)) :
    ∃ span e' t ht, statement s = .ok ⟨.returnJump span (some e'), t, ht⟩ ∧ e'.bare = e.bare ∧
      t.Holds types ls := by
  have hbrace : s.sees .leftBrace = false := hs.sees_eq _
  have hdecl : s.peek.declKeyword?.isSome = false := by rw [hs.peek_eq]; rfl
  obtain ⟨s₁, h₁, heq₁, hs₁⟩ := hs.take?_eq_some (f := Lexeme.stmtKeyword?) rfl
  have hempty : s₁.accept? .semicolon = none := hs₁.accept?_cons_eq_none (isSymbol_eq_false hl)
  obtain ⟨e', s₂, h₂, heq₂, hbare, hs₂⟩ :=
    hread.whole s₁ _ hs₁ (Level.stops_of_joins?_eq_none rfl)
  have hexpression : expression s₁ = _ := heq₂
  obtain ⟨t, ht, heq, hh⟩ := hs₂.expect_eq "after return"
  refine ⟨s.spanTo t, e', t, (ht.trans h₂).trans h₁, ?_, hbare, hh⟩
  rw [statement]
  simp only [hbrace, hdecl, heq₁, optionalBefore, hempty, hexpression, heq, since_ok,
    Attempt.ok_bind, Bool.false_eq_true, if_false]

end Parse

/-- Where the parts of a program stand whose `main` evaluates one expression and returns zero. -/
structure CallSpans where
  definition : Span
  spec : Span
  declarator : Span
  body : Span
  statement : Span
  returns : Span
  zero : Span

namespace CallSpans

variable (a : CallSpans)

/-- The body of `main`. -/
def block (e : Expr) : Stmt :=
  .compound a.body [.expression a.statement (some e),
    .returnJump a.returns (some (.literal a.zero (.int 0 10 false false)))]

/-- The definition of `main`. -/
def main (e : Expr) : FunctionDef :=
  .mk ⟨[], ["int"], a.spec⟩ (.mk a.declarator [] false (.named "main") [.params [] false]) (a.block e)

/-- The program. -/
def program (e : Expr) : Program := ⟨["cstdio"], [.function a.definition (a.main e)]⟩

end CallSpans

theorem Expr.exists_of_bare_literal {e : Expr} {l : Literal}
    (h : e.bare = (Expr.literal default l).bare) : ∃ span, e = .literal span l := by
  cases e with
  | literal span l' =>
    obtain rfl := (Expr.literal.inj h).2
    exact ⟨span, rfl⟩
  | _ => cases h

theorem Expr.exists_of_bare_identifier {e : Expr} {name : String}
    (h : e.bare = (Expr.identifier default name).bare) : ∃ span, e = .identifier span name := by
  cases e with
  | identifier span name' =>
    obtain rfl := (Expr.identifier.inj h).2
    exact ⟨span, rfl⟩
  | _ => cases h

/-- The size of a literal, up to spans. -/
theorem Expr.exists_of_bare_size {e : Expr} {l : Literal}
    (h : e.bare = (Expr.sizeofExpr default (.literal default l)).bare) :
    ∃ span span', e = .sizeofExpr span (.literal span' l) := by
  cases e with
  | sizeofExpr span operand =>
    obtain ⟨span', rfl⟩ := exists_of_bare_literal (Expr.sizeofExpr.inj h).2
    exact ⟨span, span', rfl⟩
  | _ => cases h

/-- A call of a name, up to spans. -/
theorem Expr.exists_of_bare_call {e callee : Expr} {args : List Expr}
    (h : e.bare = (Expr.call default callee args).bare) :
    ∃ span callee' args', e = .call span callee' args' ∧ callee'.bare = callee.bare ∧
      args'.map Expr.bare = args.map Expr.bare := by
  cases e with
  | call span callee' args' =>
    simp only [Expr.bare, Expr.call.injEq, true_and, Expr.bareAll_eq_map] at h
    exact ⟨span, callee', args', rfl, h⟩
  | _ => cases h

namespace Parse

variable {e : Expr} {name : String} {ws : List Lexeme}

theorem reads_zero : Reads types .expression (.literal default (.int 0 10 false false))
    [int 0 10 false false] :=
  ((Phrase.int default 0 10 false false).loosen (m := .expression) (by decide)).reads

/-- The body of `main`: a statement that calls, and one that returns zero. -/
theorem compound_call (hname : name ∉ types)
    (hread : Reads types .trailing e (identifier name :: symbol .leftParen :: ws))
    (hs : s.Holds types (symbol .leftBrace :: identifier name :: symbol .leftParen :: ws ++
      [symbol .semicolon, keyword .returnWord, int 0 10 false false, symbol .semicolon,
        symbol .rightBrace] ++ ls)) :
    ∃ (a : CallSpans) (e' : Expr) (t : Tokens) (ht : t.Shorter s),
      compound s = .ok ⟨a.block e', t, ht⟩ ∧ e'.bare = e.bare ∧ t.Holds types ls := by
  obtain ⟨s₁, h₁, heq₁, hs₁⟩ := hs.expect_eq "to open block"
  simp only [List.append_eq, List.cons_append, List.append_assoc] at hs₁
  obtain ⟨statement', e', s₂, h₂, heq₂, hbare, hs₂⟩ := statement_call hname hread hs₁
  obtain ⟨returns, zero, s₃, h₃, heq₃, hzero, hs₃⟩ :=
    statement_return (l := int 0 10 false false) nofun reads_zero hs₂
  obtain ⟨span, rfl⟩ := Expr.exists_of_bare_literal hzero
  obtain ⟨t, ht, heq, hh⟩ := hs₃.expect_eq "after block"
  have hblock : blockTail s [] s₁ h₁ = .ok ⟨[.expression statement' (some e'),
      .returnJump returns (some (.literal span (.int 0 10 false false)))], t,
      ht.trans (h₃.trans (h₂.trans h₁))⟩ := by
    have hsees₁ : s₁.sees .rightBrace = false := hs₁.sees_eq _
    have hsees₂ : s₂.sees .rightBrace = false := hs₂.sees_eq _
    have hsees₃ : s₃.sees .rightBrace = true := hs₃.sees_eq _
    rw [blockTail]
    simp only [hsees₁, hs₁.atEnd_eq, Bool.or_self, Bool.false_eq_true, if_false, heq₂,
      Attempt.ok_bind]
    rw [blockTail]
    simp only [hsees₂, hs₂.atEnd_eq, Bool.or_self, Bool.false_eq_true, if_false, heq₃,
      Attempt.ok_bind]
    rw [blockTail]
    simp only [hsees₃, Bool.true_or, if_true, heq, Attempt.ok_bind]
    rfl
  refine ⟨⟨default, default, default, s.spanTo t, statement', returns, span⟩, e', t,
    ht.trans (h₃.trans (h₂.trans h₁)), ?_, hbare, hh⟩
  rw [compound]
  simp only [heq₁, hblock, Attempt.ok_bind]
  rfl

/-- A declarator of a function without parameters, up to spans. -/
theorem exists_of_bare_function {d : Declarator} {span : Span} {name : String}
    (h : d.bare = (Declarator.mk span [] false (.named name) [.params [] false]).bare) :
    ∃ span, d = .mk span [] false (.named name) [.params [] false] := by
  obtain ⟨span, marks, reference, base, suffixes⟩ := d
  simp only [Declarator.bare, Declarator.mk.injEq, true_and] at h
  obtain ⟨rfl, rfl, hbase, hsuffixes⟩ := h
  refine ⟨span, ?_⟩
  cases base with
  | named =>
    cases hbase
    match suffixes with
    | [] => cases hsuffixes
    | .params [] variadic :: [] =>
      cases hsuffixes
      rfl
    | .params (.mk .. :: _) _ :: _ => cases hsuffixes
    | .params [] _ :: _ :: _ => cases hsuffixes
    | .array _ :: _ => cases hsuffixes
  | _ => cases hbase

/-- The definition of `main`. -/
theorem external_call (hname : name ∉ types)
    (hread : Reads types .trailing e (identifier name :: symbol .leftParen :: ws))
    (hs : s.Holds types (opening ++ identifier name :: symbol .leftParen :: ws ++
      [symbol .semicolon, keyword .returnWord, int 0 10 false false, symbol .semicolon,
        symbol .rightBrace] ++ ls)) :
    ∃ (a : CallSpans) (e' : Expr) (t : Tokens) (ht : t.Shorter s),
      external s = .ok ⟨.function a.definition (a.main e'), t, ht⟩ ∧ e'.bare = e.bare ∧
        t.Holds types ls := by
  have hkeyword : s.take? Lexeme.declKeyword? = none := hs.take?_cons_eq_none rfl
  have hstruct : s.structHead? = none := by
    have hahead : s.ahead 2 = symbol .leftParen := hs.ahead_eq 2
    rw [Tokens.structHead?, hahead]
    rfl
  have hspec : TypeSpec.IsBuiltin ⟨[], ["int"], default⟩ :=
    ⟨List.forall_mem_nil _, by simp [typeWords], List.cons_ne_nil _ _⟩
  obtain ⟨spec, s₁, h₁, heq₁, hbare₁, hs₁⟩ :=
    TypeSpec.parse_known (k := identifier "main") (hspec.isKnown types) rfl hs
  have hmore : s₁.accept? .semicolon = none := hs₁.accept?_cons_eq_none rfl
  have hmain : isName "main" = true := by decide
  obtain ⟨d, s₂, h₂, heq₂, hbare₂, hs₂⟩ := declarator_print (x := .leftBrace) false
    (.mk default [] false (.named "main") [.params [] false]) ⟨hmain, ⟨trivial, trivial⟩, fun h => by cases h⟩
    (.inr rfl) h₁ rfl hs₁
  obtain ⟨span, rfl⟩ := exists_of_bare_function hbare₂
  have hbrace : s₂.sees .leftBrace = true := hs₂.sees_eq _
  obtain ⟨a, e', t, ht, heq, hbare, hh⟩ := compound_call hname hread hs₂
  refine ⟨{ a with definition := s.spanTo t, spec := spec.span, declarator := span }, e', t,
    ht.trans h₂, ?_, hbare, hh⟩
  have hmainSpec : spec = ⟨[], ["int"], spec.span⟩ := by
    obtain ⟨specifiers, words, span⟩ := spec
    obtain ⟨rfl, rfl, -⟩ := TypeSpec.mk.inj hbare₁
    rfl
  rw [external]
  simp only [hkeyword, hstruct, heq₁, hmore, since_none, heq₂, Declarator.functionParams?,
    Option.isSome_some, hbrace, Bool.and_self, if_true, heq, since_ok, Attempt.ok_bind]
  rw [hmainSpec]
  rfl

end Parse

/-- The text of the program is parsed as the program of the call. -/
theorem Program.parse_callText {name text : String} {args : List (Expr × List Lexeme)}
    (hname : isName name = true) (hfile : name ≠ "FILE")
    (htext : Scans text.toList ([symbol .comma].intercalate (args.map Prod.snd)))
    (hargs : ∀ a ∈ args, ReadsArgument ["FILE"] a.1 a.2) :
    ∃ (a : CallSpans) (e : Expr), parse (callText name text) = .ok (a.program e) ∧
      e.bare = (Expr.call default (.identifier default name) (args.map Prod.fst)).bare := by
  obtain ⟨ts, hscan, hmap⟩ := scan_callText hname htext
  have htypes : name ∉ ["FILE"] := by simpa using hfile
  let ws := [symbol .comma].intercalate (args.map Prod.snd) ++ [symbol .rightParen]
  have hread : Reads ["FILE"] .trailing
      (.call default (.identifier default name) (args.map Prod.fst))
      (identifier name :: symbol .leftParen :: ws) :=
    (Phrase.next (.name default htypes)).reads.call default hargs
  let s : Tokens := .ofList ["cstdio"] ts
  have hs : s.Holds ["FILE"] (opening ++ identifier name :: symbol .leftParen :: ws ++
      [symbol .semicolon, keyword .returnWord, int 0 10 false false, symbol .semicolon,
        symbol .rightBrace] ++ []) := by
    have htypeNames : s.typeNames = ["FILE"] := by
      show (if ["cstdio"].any declaresFile then ["FILE"] else []) = ["FILE"]
      exact if_pos (by decide)
    refine ⟨?_, htypeNames⟩
    show ts.dropLast.map Token.lexeme = _
    rw [List.map_dropLast, hmap, List.dropLast_concat]
    simp [ws, closing]
  obtain ⟨a, e, t, ht, heq, hbare, hh⟩ := Parse.external_call htypes hread hs
  refine ⟨a, e, ?_, hbare⟩
  have hempty : s.accept? .semicolon = none := hs.accept?_cons_eq_none rfl
  have hend : t.atEnd = true := by
    rw [Tokens.atEnd, List.map_eq_nil_iff.mp hh.lexemes]
    rfl
  have hitems : Parse.items s = .ok [.function a.definition (a.main e)] := by
    rw [Parse.items]
    simp only [hs.atEnd_eq, Bool.false_eq_true, if_false, hempty, heq, Attempt.ok_bind]
    rw [Parse.items, if_pos hend]
    rfl
  rw [parse, hscan]
  show Parse.items s >>= _ = _
  rw [hitems]
  rfl

end Stepwise
