import Stepwise.Proofs.Syntax.Grammar
import Stepwise.Proofs.Token.Scanning

/-! # Parsing the names of types

The specifiers and words of a type, its pointer marks and its reference mark are read up to
what closes them: a symbol, or a name that is declared with the type.
-/

namespace Stepwise

open Lexeme

/-- The words of a type end before a symbol or an identifier. -/
def Lexeme.closesWords : Lexeme → Bool
  | symbol _ | identifier _ => true
  | _ => false

/-- A lexeme that closes the words of a type and is no mark. -/
def Lexeme.endsMarks (l : Lexeme) : Bool :=
  l.closesWords && !l.isSymbol .star && !l.isSymbol .amp

variable {types : List String} {k : Lexeme} {ls : List Lexeme} {s : Tokens}

namespace TypeSpec

theorem wordOf?_of_closesWords (hk : k.closesWords = true) {words : List String}
    (hwords : words ≠ []) (s : Tokens) : wordOf? s words k = none := by
  cases k with
  | symbol => rfl
  | identifier name => simp [wordOf?, hwords]
  | _ => cases hk

theorem parseWords_specifiers (ws : List String) (s₀ : Tokens) (specifiers words : List String)
    (h : s.rest.length ≤ s₀.rest.length) (hw : words ≠ [] → s.Shorter s₀)
    (hs : s.Holds types (ws.map specifier ++ ls)) :
    ∃ t ht hwt, parseWords s₀ specifiers words s h hw =
      parseWords s₀ (ws.reverseAux specifiers) words t ht hwt ∧ t.Holds types ls := by
  induction ws generalizing specifiers s with
  | nil => exact ⟨s, h, hw, rfl, hs⟩
  | cons w ws ih =>
    obtain ⟨s₁, h₁, heq, hs₁⟩ := hs.take?_eq_some (f := wordOf? s words) rfl
    rw [parseWords, heq]
    exact ih _ _ _ hs₁

theorem parseWords_words (ws : List String) (s₀ : Tokens) (specifiers words : List String)
    (h : s.rest.length ≤ s₀.rest.length) (hw : words ≠ [] → s.Shorter s₀)
    (hs : s.Holds types (ws.map typeWord ++ ls)) :
    ∃ t ht hwt, parseWords s₀ specifiers words s h hw =
      parseWords s₀ specifiers (ws.reverseAux words) t ht hwt ∧ t.Holds types ls := by
  induction ws generalizing words s with
  | nil => exact ⟨s, h, hw, rfl, hs⟩
  | cons w ws ih =>
    obtain ⟨s₁, h₁, heq, hs₁⟩ := hs.take?_eq_some (f := wordOf? s words) rfl
    rw [parseWords, heq]
    exact ih _ _ _ hs₁

/-- The name of a type is read as its only word. -/
theorem parseWords_name {name : String} (hname : name ∈ types) (s₀ : Tokens)
    (specifiers : List String) (h : s.rest.length ≤ s₀.rest.length)
    (hw : ([] : List String) ≠ [] → s.Shorter s₀) (hs : s.Holds types (identifier name :: ls)) :
    ∃ t ht hwt, parseWords s₀ specifiers [] s h hw = parseWords s₀ specifiers [name] t ht hwt ∧
      t.Holds types ls := by
  have htype : s.isType name = true := by
    rw [Tokens.isType, hs.typeNames]
    exact List.contains_iff_mem.mpr hname
  obtain ⟨t, ht, heq, hh⟩ := hs.take?_eq_some (f := wordOf? s []) (a := .word name)
    (by simp [wordOf?, htype])
  refine ⟨t, Nat.le_trans (Nat.le_of_lt ht) h, fun _ => Nat.lt_of_lt_of_le ht h, ?_, hh⟩
  rw [parseWords, heq]

/-- The words name a built-in type, or are a name known as a type. -/
structure IsKnown (types : List String) (s : TypeSpec) : Prop where
  specifiers : ∀ w ∈ s.specifiers, w ∈ specifierWords
  words : s.words ≠ [] ∧ (∀ w ∈ s.words, w ∈ typeWords) ∨
    ∃ name ∈ types, isName name = true ∧ s.words = [name]

theorem IsBuiltin.isKnown {spec : TypeSpec} (h : spec.IsBuiltin) (types : List String) :
    spec.IsKnown types :=
  ⟨h.specifiers, .inl ⟨h.words_ne_nil, h.words⟩⟩

/-- The lexemes of specifiers and the words of a type. -/
def print (s : TypeSpec) : List Lexeme := s.specifiers.map specifier ++ s.words.map ofWord

theorem map_ofWord_of_mem_typeWords {ws : List String} (hws : ∀ w ∈ ws, w ∈ typeWords) :
    ws.map ofWord = ws.map typeWord :=
  List.map_congr_left fun w hw => ofWord_of_mem_typeWords (hws w hw)

/-- The words of a type are read up to what closes them. -/
theorem parse_known {spec : TypeSpec} (hspec : spec.IsKnown types) (hk : k.closesWords = true)
    (hs : s.Holds types (spec.print ++ k :: ls)) :
    ∃ spec' t ht, parse s = .ok ⟨spec', t, ht⟩ ∧ spec'.bare = spec.bare ∧
      t.Holds types (k :: ls) := by
  rw [print, List.append_assoc] at hs
  obtain ⟨s₁, h₁, hw₁, heq₁, hs₁⟩ := parseWords_specifiers spec.specifiers s [] [] (Nat.le_refl _)
    (fun h => absurd rfl h) hs
  obtain ⟨s₂, h₂, hw₂, heq₂, hs₂⟩ : ∃ t ht hwt,
      parseWords s (spec.specifiers.reverseAux []) [] s₁ h₁ hw₁ =
        parseWords s (spec.specifiers.reverseAux []) (spec.words.reverseAux []) t ht hwt ∧
      t.Holds types (k :: ls) := by
    obtain ⟨-, hwords⟩ | ⟨name, hname, hisName, hwords⟩ := hspec.words
    · rw [map_ofWord_of_mem_typeWords hwords] at hs₁
      exact parseWords_words spec.words s _ [] h₁ hw₁ hs₁
    · rw [hwords, List.map_singleton, ofWord_of_isName hisName] at hs₁
      rw [hwords]
      exact parseWords_name hname s _ h₁ hw₁ hs₁
  have hwords : spec.words.reverseAux [] ≠ [] := by
    obtain ⟨hne, -⟩ | ⟨name, -, -, hwords⟩ := hspec.words
    · simpa [List.reverseAux_eq] using hne
    · simp [hwords]
  have hstop : s₂.take? (wordOf? s₂ (spec.words.reverseAux [])) = none :=
    hs₂.take?_cons_eq_none (wordOf?_of_closesWords hk hwords s₂)
  refine ⟨⟨(spec.specifiers.reverseAux []).reverse, (spec.words.reverseAux []).reverse,
    s.spanTo s₂⟩, s₂, hw₂ hwords, ?_, by simp [bare, List.reverseAux_eq], hs₂⟩
  rw [parse, heq₁, heq₂, parseWords, hstop]
  exact dif_neg hwords

end TypeSpec

namespace Tokens

/-- What follows the words of a type closes them. -/
theorem exists_flatMap_ofPointer (marks : List Bool) (hk : k.closesWords = true)
    (ls : List Lexeme) :
    ∃ l us, marks.flatMap ofPointer ++ k :: ls = l :: us ∧ l.closesWords = true := by
  cases marks with
  | nil => exact ⟨k, ls, rfl, hk⟩
  | cons isConst marks => exact ⟨symbol .star, _, rfl, rfl⟩

/-- No specifier is read before what closes the words. -/
theorem pointerWords_of_closesWords (isConst : Bool) {s₀ : Tokens} (h : s.Shorter s₀)
    (hk : k.closesWords = true) (hs : s.Holds types (k :: ls)) :
    pointerWords s₀ isConst s h = ⟨isConst, s, h⟩ := by
  rw [pointerWords]
  split
  · rfl
  · next heq =>
    have hword := (hs.of_take?_eq_some heq).1
    cases k with
    | specifier => cases hk
    | _ => cases hword

/-- The words after a pointer mark are read up to what closes them. -/
theorem pointerWords_const (isConst : Bool) {s₀ : Tokens} (h : s.Shorter s₀)
    (hk : k.closesWords = true)
    (hs : s.Holds types ((if isConst then [specifier "const"] else []) ++ k :: ls)) :
    (pointerWords s₀ false s h).value = isConst ∧
      (pointerWords s₀ false s h).next.Holds types (k :: ls) := by
  cases isConst with
  | false => rw [pointerWords_of_closesWords false h hk hs]; exact ⟨rfl, hs⟩
  | true =>
    rw [pointerWords]
    split
    · next heq => cases hs.of_take?_eq_none heq
    · next w t ht heq =>
      obtain ⟨hw, hh⟩ := hs.of_take?_eq_some heq
      obtain rfl : "const" = w := Option.some.inj hw
      rw [pointerWords_of_closesWords _ _ hk hh]
      exact ⟨by simp, hh⟩

/-- Pointer marks are read up to what is no further mark. -/
theorem pointers_marks (marks before : List Bool) (hk : k.closesWords = true)
    (hstar : k.isSymbol .star = false) (hs : s.Holds types (marks.flatMap ofPointer ++ k :: ls)) :
    (s.pointers before).1 = before.reverse ++ marks ∧
      (s.pointers before).2.val.Holds types (k :: ls) := by
  induction marks generalizing before s with
  | nil =>
    have hstop : s.accept? .star = none := hs.accept?_cons_eq_none hstar
    rw [pointers, hstop]
    exact ⟨(List.append_nil _).symm, hs⟩
  | cons isConst marks ih =>
    rw [List.flatMap_cons, List.append_assoc, ofPointer, List.cons_append] at hs
    obtain ⟨s₁, h₁, heq, hs₁⟩ := hs.accept?_eq_some
    obtain ⟨l, us, hus, hl⟩ := exists_flatMap_ofPointer marks hk ls
    rw [hus] at hs₁ ih
    obtain ⟨hconst, hs₂⟩ := pointerWords_const isConst h₁ hl hs₁
    obtain ⟨hmarks, hh⟩ := ih (isConst :: before) hs₂
    rw [pointers, heq]
    simp only [hconst]
    rw [List.reverse_cons, List.append_assoc, List.singleton_append] at hmarks
    exact ⟨hmarks, hh⟩

/-- A reference mark is skipped, and known to be there. -/
theorem skip_mark (mark : Bool) {x : Symbol} (hk : k.isSymbol x = false)
    (hs : s.Holds types ((if mark then [symbol x] else []) ++ k :: ls)) :
    (s.skip x).1 = mark ∧ (s.skip x).2.val.Holds types (k :: ls) := by
  cases mark with
  | false =>
    have hstop : s.accept? x = none := hs.accept?_cons_eq_none hk
    rw [skip, hstop]
    exact ⟨rfl, hs⟩
  | true =>
    obtain ⟨t, ht, heq, hh⟩ := hs.accept?_eq_some
    rw [skip, heq]
    exact ⟨rfl, hh⟩

/-- Pointer marks and the reference mark behind them are read up to what ends them. -/
theorem Holds.marks_eq (marks : List Bool) (reference : Bool) (hk : k.endsMarks = true)
    (hs : s.Holds types
      (marks.flatMap ofPointer ++ ((if reference then [symbol .amp] else []) ++ k :: ls))) :
    (s.pointers []).1 = marks ∧ ((s.pointers []).2.val.skip .amp).1 = reference ∧
      ((s.pointers []).2.val.skip .amp).2.val.Holds types (k :: ls) := by
  simp only [endsMarks, Bool.and_eq_true, Bool.not_eq_true'] at hk
  obtain ⟨⟨hwords, hstar⟩, hamp⟩ := hk
  obtain ⟨hmarks, hs₁⟩ : (s.pointers []).1 = marks ∧ (s.pointers []).2.val.Holds types
      ((if reference then [symbol .amp] else []) ++ k :: ls) := by
    cases reference with
    | false => exact pointers_marks marks [] hwords hstar hs
    | true => exact pointers_marks marks [] rfl rfl hs
  exact ⟨hmarks, skip_mark reference hamp hs₁⟩

end Tokens

/-- A built-in type is known for one by the parenthesis before it. -/
theorem Tokens.Holds.parenStartsType_eq_true {spec : TypeSpec} (hspec : spec.words ≠ [])
    {marks : List Bool} {reference : Bool} {k : Lexeme}
    (hs : s.Holds types (k :: (ofType spec marks reference ++ ls))) : s.parenStartsType = true := by
  have hahead := hs.ahead_eq 1
  rw [Tokens.parenStartsType, hahead]
  obtain ⟨specifiers, words, span⟩ := spec
  cases specifiers with
  | cons w ws => rfl
  | nil =>
    cases words with
    | nil => exact absurd rfl hspec
    | cons w ws => rfl

namespace Parse

/-- The marks of a built-in type are a declarator without a name. -/
theorem declarator_marks (marks : List Bool) (reference : Bool) {s₀ : Tokens} (h : s.Shorter s₀)
    (hs : s.Holds types (marks.flatMap ofPointer ++
      ((if reference then [symbol .amp] else []) ++ symbol .rightParen :: ls))) :
    ∃ span t ht, declarator true s₀ s h =
        .ok ⟨.mk span marks reference .anonymous [], t, ht⟩ ∧
      t.Holds types (symbol .rightParen :: ls) := by
  obtain ⟨hmarks, hreference, hs₂⟩ := hs.marks_eq marks reference rfl
  have hname : ((s.pointers []).2.val.skip .amp).2.val.take? Lexeme.identifier? = none :=
    hs₂.take?_cons_eq_none rfl
  have hopen : ((s.pointers []).2.val.skip .amp).2.val.opensDeclarator = false := by
    rw [Tokens.opensDeclarator, hs₂.sees_eq]
    rfl
  have hbracket : ((s.pointers []).2.val.skip .amp).2.val.accept? .leftBracket = none :=
    hs₂.accept?_cons_eq_none rfl
  refine ⟨s.spanTo ((s.pointers []).2.val.skip .amp).2.val, _, ?_, ?_, hs₂⟩
  · exact Nat.lt_of_le_of_lt (Nat.le_trans ((s.pointers []).2.val.skip .amp).2.property
      (s.pointers []).2.property) h
  · rw [declarator]
    simp only [hname, hopen, hmarks, hreference, Bool.false_eq_true, if_false, if_true]
    rw [suffixesTail]
    simp only [hbracket]
    rfl

/-- The name of a built-in type is read up to the parenthesis. -/
theorem typeName_ofType {spec : TypeSpec} (hspec : spec.IsBuiltin) (marks : List Bool)
    (reference : Bool)
    (hs : s.Holds types (ofType spec marks reference ++ symbol .rightParen :: ls)) :
    ∃ spec' span t ht, typeName s =
        .ok ⟨(spec', .mk span marks reference .anonymous []), t, ht⟩ ∧
      spec'.bare = spec.bare ∧ t.Holds types (symbol .rightParen :: ls) := by
  simp only [ofType, List.append_assoc] at hs
  obtain ⟨l, us, hus, hl⟩ : ∃ l us, marks.flatMap ofPointer ++
      ((if reference then [symbol .amp] else []) ++ symbol .rightParen :: ls) = l :: us ∧
        l.closesWords = true := by
    cases reference with
    | false => exact Tokens.exists_flatMap_ofPointer marks rfl ls
    | true => exact Tokens.exists_flatMap_ofPointer marks rfl _
  rw [hus] at hs
  rw [← List.append_assoc, ← TypeSpec.map_ofWord_of_mem_typeWords hspec.words] at hs
  obtain ⟨spec', s₁, h₁, hparse, hbare, hs₁⟩ := TypeSpec.parse_known (hspec.isKnown types) hl hs
  rw [← hus] at hs₁
  obtain ⟨span, t, ht, hdeclarator, hh⟩ := declarator_marks marks reference h₁ hs₁
  refine ⟨spec', span, t, ht, ?_, hbare, hh⟩
  rw [typeName, hparse]
  show (declarator true s s₁ h₁ >>= _) = _
  rw [hdeclarator]
  rfl

end Parse

end Stepwise
