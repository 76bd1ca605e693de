import Stepwise.Proofs.Parsing.Stopping
import Stepwise.Proofs.Phrases.Slices

/-! # Pieces of a token stream

A piece of a stream is a stream of its own: it has the tokens up to some point, each with the
span that it has in the piece. What is read from the stream before that point is read from
the piece as well.
-/

namespace Stepwise

/-- The word for no type. -/
def Lexeme.void? : Lexeme → Option Unit
  | typeWord "void" => some ()
  | _ => none

theorem Lexeme.void?_eq (l : Lexeme) :
    (match l with | .typeWord "void" => some () | _ => none) = l.void? := by
  rfl

/-- A way to set tokens apart: the spans of the piece are moved by `move` to where they are in the
whole stream, where the tokens `beyond` follow. The piece has `size` tokens at first. -/
structure Piece where
  move : Span → Span
  beyond : List Token
  size : Nat
  move_through : ∀ a b, move (a.through b) = (move a).through (move b)

namespace Piece

open Tokens

variable {k : Piece} {s s' t t' : Tokens} {α : Type} {f : Lexeme → Option α}

/-- `s'` is what the piece has of the stream `s`. -/
structure Holds (k : Piece) (s' s : Tokens) : Prop where
  rest : s.rest = s'.rest.map (Token.move k.move) ++ k.beyond
  types : s'.typeNames = s.typeNames
  fits : s'.rest.length ≤ k.size
  previous : s'.rest.length < k.size → s.previous = k.move s'.previous

namespace Holds

theorem length (h : k.Holds s' s) : s.rest.length = s'.rest.length + k.beyond.length := by
  rw [h.rest, List.length_append, List.length_map]

theorem shorter (h : k.Holds s' s) (ht : k.Holds t' t) (hst : t.Shorter s) : t'.Shorter s' := by
  have hs := h.length
  have ht := ht.length
  simp only [Shorter] at hst ⊢
  omega

theorem length_le (h : k.Holds s' s) (ht : k.Holds t' t) (hst : t.rest.length ≤ s.rest.length) :
    t'.rest.length ≤ s'.rest.length := by
  have hs := h.length
  have ht := ht.length
  omega

theorem ahead (h : k.Holds s' s) {n : Nat} (hn : n < s'.rest.length) : s'.ahead n = s.ahead n := by
  have hget : s.rest[n]? = s'.rest[n]?.map (Token.move k.move) := by
    rw [h.rest, List.getElem?_append_left (by rwa [List.length_map]), List.getElem?_map]
  rw [Tokens.ahead, Tokens.ahead, hget, Option.map_map]
  rfl

theorem peek (h : k.Holds s' s) (hne : 0 < s'.rest.length) : s'.peek = s.peek := h.ahead hne

theorem sees (h : k.Holds s' s) (hne : 0 < s'.rest.length) (x : Symbol) :
    s'.sees x = s.sees x := by
  rw [Tokens.sees, Tokens.sees, h.peek hne]

theorem isType (h : k.Holds s' s) (name : String) : s'.isType name = s.isType name := by
  rw [Tokens.isType, Tokens.isType, h.types]

theorem wordOf? (h : k.Holds s' s) (words : List String) :
    TypeSpec.wordOf? s' words = TypeSpec.wordOf? s words := by
  funext l
  cases l <;> simp only [TypeSpec.wordOf?, h.isType]

theorem current (h : k.Holds s' s) (hne : 0 < s'.rest.length) : s.current = k.move s'.current := by
  obtain ⟨tok, toks, hrest⟩ := List.exists_cons_of_length_pos hne
  rw [Tokens.current, Tokens.current, h.rest, hrest]
  rfl

/-- A phrase that the piece has is as long there as in the whole. -/
theorem spanTo (h : k.Holds s' s) (ht : k.Holds t' t) (hne : 0 < s'.rest.length)
    (hlt : t'.rest.length < k.size) : s.spanTo t = k.move (s'.spanTo t') := by
  rw [Tokens.spanTo, Tokens.spanTo, k.move_through, h.current hne, ht.previous hlt]

theorem spanTo_of_shorter (h : k.Holds s' s) (ht : k.Holds t' t) (hlt : t'.Shorter s') :
    s.spanTo t = k.move (s'.spanTo t') :=
  h.spanTo ht (Nat.zero_lt_of_lt hlt) (Nat.lt_of_lt_of_le hlt h.fits)

end Holds

/-- What is read from a stream is read from the piece as well, or reaches beyond that. -/
inductive Offers (k : Piece) : Option (Parsed s' α) → Option (Parsed s α) → Prop
  | none : k.Offers none none
  | some (a : α) {t' t : Tokens} {h' : t'.Shorter s'} {h : t.Shorter s} :
    k.Holds t' t → k.Offers (some ⟨a, t', h'⟩) (some ⟨a, t, h⟩)
  | beyond {o' : Option (Parsed s' α)} {p : Parsed s α} :
    p.next.rest.length < k.beyond.length → k.Offers o' (some p)

/-- The same for what has to be there. -/
def Demands (k : Piece) (x' : Attempt (Parsed s' α)) (x : Attempt (Parsed s α)) : Prop :=
  ∀ p, x = .ok p → k.beyond.length ≤ p.next.rest.length →
    ∃ p', x' = .ok p' ∧ p'.value = p.value ∧ k.Holds p'.next p.next

theorem Holds.take? (h : k.Holds s' s) (f : Lexeme → Option α) :
    k.Offers (s'.take? f) (s.take? f) := by
  obtain ⟨rest, finish, previous, types⟩ := s
  obtain ⟨rest', finish', previous', types'⟩ := s'
  obtain ⟨hrest, htypes, hfits, hprevious⟩ := h
  cases rest' with
  | nil =>
    cases rest with
    | nil => exact .none
    | cons tok toks =>
      simp only [Tokens.take?]
      cases f tok.lexeme with
      | none => exact .none
      | some a =>
        simp only [List.map_nil, List.nil_append] at hrest
        exact .beyond (by rw [← hrest]; exact Nat.lt_succ_self _)
  | cons tok' toks' =>
    simp only [List.map_cons, List.cons_append] at hrest
    subst hrest
    simp only [Tokens.take?, Token.lexeme_move]
    cases f tok'.lexeme with
    | none => exact .none
    | some a =>
      exact .some a ⟨rfl, htypes, Nat.le_of_succ_le hfits, fun _ => rfl⟩

theorem eq_none_of_offers {o' : Option (Parsed s' α)} {o : Option (Parsed s α)}
    (ho : k.Offers o' o) (h : o = none) : o' = none := by
  subst h
  cases ho
  rfl

/-- What is read within the piece is read from it. -/
theorem eq_some_of_offers {o' : Option (Parsed s' α)} {o : Option (Parsed s α)}
    (ho : k.Offers o' o) {p : Parsed s α} (h : o = some p)
    (hle : k.beyond.length ≤ p.next.rest.length) :
    ∃ t' h', o' = some ⟨p.value, t', h'⟩ ∧ k.Holds t' p.next := by
  subst h
  cases ho with
  | some _ ht => exact ⟨_, _, rfl, ht⟩
  | beyond hlt => exact absurd hle (Nat.not_le_of_lt hlt)

theorem Holds.accept? (h : k.Holds s' s) (x : Symbol) : k.Offers (s'.accept? x) (s.accept? x) :=
  h.take? _

theorem Holds.acceptKeyword? (h : k.Holds s' s) (x : Keyword) :
    k.Offers (s'.acceptKeyword? x) (s.acceptKeyword? x) :=
  h.take? _

theorem Offers.demands {o' : Option (Parsed s' α)} {o : Option (Parsed s α)} (h : k.Offers o' o)
    (what : String) : k.Demands (o'.elim (s'.fail what) .ok) (o.elim (s.fail what) .ok) := by
  intro p hp hle
  cases h with
  | none => cases hp
  | some a ht => cases hp; exact ⟨_, rfl, rfl, ht⟩
  | beyond hlt => cases hp; exact absurd hle (Nat.not_le_of_lt hlt)

theorem Holds.expect (h : k.Holds s' s) (x : Symbol) (role : String) :
    k.Demands (s'.expect x role) (s.expect x role) := by
  have hexpect (u : Tokens) : u.expect x role =
      (u.accept? x).elim (u.fail ("'" ++ String.ofList x.chars ++ "' " ++ role)) .ok := by
    rw [Tokens.expect]
    cases u.accept? x <;> rfl
  rw [hexpect, hexpect]
  exact (h.accept? x).demands _

theorem Holds.expectIdentifier (h : k.Holds s' s) :
    k.Demands s'.expectIdentifier s.expectIdentifier := by
  have hexpect (u : Tokens) :
      u.expectIdentifier = (u.take? Lexeme.identifier?).elim (u.fail "identifier") .ok := by
    rw [Tokens.expectIdentifier]
    cases u.take? Lexeme.identifier? <;> rfl
  rw [hexpect, hexpect]
  exact (h.take? _).demands _

section Ahead

theorem ahead_of_length_le {s : Tokens} {n : Nat} (h : s.rest.length ≤ n) :
    s.ahead n = .endOfFile := by
  rw [Tokens.ahead, List.getElem?_eq_none h]
  rfl

/-- What is seen ahead in the piece is what is seen in the whole, or the end. -/
theorem Holds.ahead_or (h : k.Holds s' s) (n : Nat) :
    s'.ahead n = s.ahead n ∨ s'.ahead n = .endOfFile := by
  by_cases hn : n < s'.rest.length
  · exact .inl (h.ahead hn)
  · exact .inr (ahead_of_length_le (Nat.le_of_not_lt hn))

theorem Holds.parenStartsType (h : k.Holds s' s) (hlt : 2 < s'.rest.length) :
    s'.parenStartsType = s.parenStartsType := by
  simp only [Tokens.parenStartsType, h.ahead hlt, h.ahead (Nat.lt_of_succ_lt hlt), h.isType]

theorem Holds.parenStartsType_of_piece (h : k.Holds s' s) (hp : s'.parenStartsType = true) :
    s.parenStartsType = true := by
  by_cases hlt : 2 < s'.rest.length
  · rw [← h.parenStartsType hlt, hp]
  · have htwo : s'.ahead 2 = .endOfFile := ahead_of_length_le (Nat.le_of_not_lt hlt)
    rcases h.ahead_or 1 with hone | hone
    · rw [Tokens.parenStartsType, hone] at hp
      rw [Tokens.parenStartsType]
      split at hp
      case h_4 => simp [htwo, Lexeme.isSymbol] at hp
      case h_5 => cases hp
      all_goals rfl
    · simp [Tokens.parenStartsType, hone] at hp

/-- A parenthesis before a type is read alike, or the piece ends within the three tokens that a type
in parentheses has at least. -/
theorem Holds.typeParen (h : k.Holds s' s) :
    k.Offers (if s'.parenStartsType then s'.accept? .leftParen else none)
        (if s.parenStartsType then s.accept? .leftParen else none) ∨
      s'.rest.length ≤ 2 ∧
        ∃ q, (if s.parenStartsType then s.accept? .leftParen else none) = some q := by
  by_cases hlt : 2 < s'.rest.length
  · rw [h.parenStartsType hlt]
    cases s.parenStartsType with
    | true => exact .inl (h.accept? _)
    | false => exact .inl .none
  · cases hparen : s.parenStartsType with
    | false =>
      have hparen' : s'.parenStartsType = false :=
        Bool.eq_false_iff.mpr fun hp => Bool.eq_false_iff.mp hparen (h.parenStartsType_of_piece hp)
      rw [hparen']
      exact .inl .none
    | true =>
      simp only [if_true]
      cases haccept : s.accept? .leftParen with
      | some q => exact .inr ⟨Nat.le_of_not_lt hlt, q, rfl⟩
      | none =>
        have hoffers := h.accept? .leftParen
        rw [haccept] at hoffers
        left
        cases hoffers' : s'.accept? .leftParen with
        | none => cases s'.parenStartsType <;> exact .none
        | some q => rw [hoffers'] at hoffers; cases hoffers

theorem ahead_of_take? {q : Parsed s α} (hq : s.take? f = some q) (n : Nat) :
    q.next.ahead n = s.ahead (n + 1) := by
  obtain ⟨rest, finish, previous, types⟩ := s
  cases rest with
  | nil => cases hq
  | cons tok toks =>
    simp only [Tokens.take?, Option.map_eq_some_iff] at hq
    obtain ⟨a, -, rfl⟩ := hq
    rfl

theorem Holds.opensDeclarator_of_piece (h : k.Holds s' s) (hp : s'.opensDeclarator = true) :
    s.opensDeclarator = true := by
  have heof : Lexeme.endOfFile.isIdentifier = false := rfl
  simp only [Tokens.opensDeclarator, Tokens.sees, Tokens.peek, Bool.and_eq_true,
    Bool.or_eq_true] at hp ⊢
  rcases h.ahead_or 0 with hzero | hzero <;> rcases h.ahead_or 1 with hone | hone <;>
    rcases h.ahead_or 2 with htwo | htwo <;>
    simp_all [Lexeme.isSymbol]

/-- The same for a parenthesis that opens a declarator; the shortest one has a name in it. -/
theorem Holds.declaratorParen (h : k.Holds s' s) :
    k.Offers (if s'.opensDeclarator then s'.accept? .leftParen else none)
        (if s.opensDeclarator then s.accept? .leftParen else none) ∨
      ∃ q, (if s.opensDeclarator then s.accept? .leftParen else none) = some q ∧
        (s'.rest.length ≤ 1 ∨ s'.rest.length = 2 ∧ q.next.peek.isIdentifier = true) := by
  cases hopens' : s'.opensDeclarator with
  | true =>
    rw [h.opensDeclarator_of_piece hopens']
    exact .inl (h.accept? _)
  | false =>
    cases hopens : s.opensDeclarator with
    | false => exact .inl .none
    | true =>
      simp only [if_true, Bool.false_eq_true, if_false]
      cases haccept : s.accept? .leftParen with
      | none => exact .inl .none
      | some q =>
        refine .inr ⟨q, rfl, ?_⟩
        by_cases hone : s'.rest.length ≤ 1
        · exact .inl hone
        · right
          rw [Tokens.peek, ahead_of_take? haccept]
          simp only [Tokens.opensDeclarator, h.sees (by omega), h.ahead (show 1 < _ by omega)]
            at hopens'
          simp only [Tokens.opensDeclarator] at hopens
          by_cases htwo : 2 < s'.rest.length
          · rw [h.ahead htwo, hopens] at hopens'
            cases hopens'
          · refine ⟨by omega, ?_⟩
            rw [ahead_of_length_le (show s'.rest.length ≤ 2 by omega)] at hopens'
            simp_all [Lexeme.isSymbol]

theorem length_of_take? {q : Parsed s α} (hq : s.take? f = some q) :
    s.rest.length = q.next.rest.length + 1 := by
  obtain ⟨rest, finish, previous, types⟩ := s
  cases rest with
  | nil => cases hq
  | cons tok toks =>
    simp only [Tokens.take?, Option.map_eq_some_iff] at hq
    obtain ⟨a, -, rfl⟩ := hq
    rfl

theorem skipVoid_eq (s : Tokens) : s.skipVoid.1 =
    if (s.ahead 1).isSymbol .rightParen then (s.take? Lexeme.void?).elim s Parsed.next else s := by
  rw [Tokens.skipVoid, ← s.take?_congr Lexeme.void?_eq]
  split
  · cases s.take? _ <;> rfl
  · rfl

/-- `void` before the closing parenthesis is skipped alike, or the piece ends with it. -/
theorem Holds.skipVoid (h : k.Holds s' s) :
    k.Holds s'.skipVoid.1 s.skipVoid.1 ∨
      s'.rest.length ≤ 1 ∧ s.skipVoid.1.rest.length < s.rest.length := by
  have hoffers := h.take? Lexeme.void?
  rw [skipVoid_eq, skipVoid_eq]
  by_cases hlt : 1 < s'.rest.length
  · left
    rw [h.ahead hlt]
    split
    · cases hvoid : s.take? Lexeme.void? with
      | none =>
        rw [hvoid] at hoffers
        cases hvoid' : s'.take? Lexeme.void? with
        | none => exact h
        | some q => rw [hvoid'] at hoffers; cases hoffers
      | some q =>
        have hlen := length_of_take? hvoid
        have hlen' := h.length
        rw [hvoid] at hoffers
        revert hoffers
        generalize s'.take? Lexeme.void? = o'
        rintro (_ | ⟨_, ht⟩ | hbeyond)
        · exact ht
        · exact absurd hbeyond (by omega)
    · exact h
  · rw [ahead_of_length_le (Nat.le_of_not_lt hlt),
      if_neg (show ¬ Lexeme.isSymbol .rightParen .endOfFile = true from Bool.false_ne_true)]
    split
    · cases s.take? Lexeme.void? with
      | none => exact .inl h
      | some q => exact .inr ⟨Nat.le_of_not_lt hlt, q.shorter⟩
    · exact .inl h

theorem Holds.skip (h : k.Holds s' s) (x : Symbol)
    (hle : k.beyond.length ≤ (s.skip x).2.1.rest.length) :
    (s'.skip x).1 = (s.skip x).1 ∧ k.Holds (s'.skip x).2.1 (s.skip x).2.1 := by
  have hoffers := h.accept? x
  rw [Tokens.skip] at hle ⊢
  rw [Tokens.skip]
  revert hle hoffers
  generalize s.accept? x = o
  generalize s'.accept? x = o'
  rintro hle (_ | ⟨_, ht⟩ | hlt)
  · exact ⟨rfl, h⟩
  · exact ⟨rfl, ht⟩
  · exact absurd hle (Nat.not_le_of_lt hlt)

end Ahead

end Piece

end Stepwise
