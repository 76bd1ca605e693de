import Stepwise.Proofs.Token.Layout
import Stepwise.Syntax.Tree

/-! # Trees somewhere else

The tree of a text that is part of a larger one has its spans in the part. Moved, it has those
that it has in the whole.
-/

namespace Stepwise

/-- The token with `f` applied to its span. -/
def Token.move (f : Span → Span) (t : Token) : Token := { t with span := f t.span }

@[simp] theorem Token.lexeme_move (f : Span → Span) (t : Token) :
    (t.move f).lexeme = t.lexeme := rfl

@[simp] theorem Token.span_move (f : Span → Span) (t : Token) : (t.move f).span = f t.span := rfl

def TypeSpec.move (f : Span → Span) (s : TypeSpec) : TypeSpec := { s with span := f s.span }

mutual

/-- The expression with `f` applied to its spans. -/
def Expr.move (f : Span → Span) : Expr → Expr
  | .literal s value => .literal (f s) value
  | .identifier s name => .identifier (f s) name
  | .qualified s path => .qualified (f s) path
  | .binary s op left right => .binary (f s) op (left.move f) (right.move f)
  | .logical s op left right => .logical (f s) op (left.move f) (right.move f)
  | .assign s op target value => .assign (f s) op (target.move f) (value.move f)
  | .comma s left right => .comma (f s) (left.move f) (right.move f)
  | .unary s op operand => .unary (f s) op (operand.move f)
  | .conditional s c t e => .conditional (f s) (c.move f) (t.move f) (e.move f)
  | .call s callee args => .call (f s) (callee.move f) (Expr.moveAll f args)
  | .index s base index => .index (f s) (base.move f) (index.move f)
  | .member s object name throughPointer => .member (f s) (object.move f) name throughPointer
  | .cast s spec target operand => .cast (f s) (spec.move f) (target.move f) (operand.move f)
  | .sizeofType s spec target => .sizeofType (f s) (spec.move f) (target.move f)
  | .sizeofExpr s operand => .sizeofExpr (f s) (operand.move f)
  | .list s items => .list (f s) (Initializer.moveAll f items)

def Expr.moveAll (f : Span → Span) : List Expr → List Expr
  | [] => []
  | e :: es => e.move f :: Expr.moveAll f es

def Expr.moveOption (f : Span → Span) : Option Expr → Option Expr
  | none => none
  | some e => some (e.move f)

def Initializer.move (f : Span → Span) : Initializer → Initializer
  | .expr value => .expr (value.move f)
  | .list s items => .list (f s) (Initializer.moveAll f items)

def Initializer.moveAll (f : Span → Span) : List Initializer → List Initializer
  | [] => []
  | i :: is => i.move f :: Initializer.moveAll f is

def Declarator.move (f : Span → Span) : Declarator → Declarator
  | .mk s pointers reference base suffixes =>
    .mk (f s) pointers reference (base.move f) (DeclaratorSuffix.moveAll f suffixes)

def DeclaratorBase.move (f : Span → Span) : DeclaratorBase → DeclaratorBase
  | .named name => .named name
  | .nested inner => .nested (inner.move f)
  | .anonymous => .anonymous

def DeclaratorSuffix.move (f : Span → Span) : DeclaratorSuffix → DeclaratorSuffix
  | .array size => .array (Expr.moveOption f size)
  | .params params variadic => .params (Param.moveAll f params) variadic

def DeclaratorSuffix.moveAll (f : Span → Span) : List DeclaratorSuffix → List DeclaratorSuffix
  | [] => []
  | s :: ss => s.move f :: DeclaratorSuffix.moveAll f ss

def Param.move (f : Span → Span) : Param → Param
  | .mk s spec declarator value =>
    .mk (f s) (spec.move f) (declarator.move f) (Expr.moveOption f value)

def Param.moveAll (f : Span → Span) : List Param → List Param
  | [] => []
  | p :: ps => p.move f :: Param.moveAll f ps

end

attribute [simp] Expr.move Initializer.move Declarator.move DeclaratorBase.move
  DeclaratorSuffix.move Param.move

section

variable (f : Span → Span)

@[simp] theorem Expr.moveAll_eq_map (es : List Expr) :
    Expr.moveAll f es = es.map (Expr.move f) := by
  induction es with
  | nil => rfl
  | cons e es ih => rw [Expr.moveAll, ih, List.map_cons]

@[simp] theorem Expr.moveOption_eq_map (o : Option Expr) :
    Expr.moveOption f o = o.map (Expr.move f) := by
  cases o <;> rfl

@[simp] theorem Initializer.moveAll_eq_map (is : List Initializer) :
    Initializer.moveAll f is = is.map (Initializer.move f) := by
  induction is with
  | nil => rfl
  | cons i is ih => rw [Initializer.moveAll, ih, List.map_cons]

@[simp] theorem DeclaratorSuffix.moveAll_eq_map (ss : List DeclaratorSuffix) :
    DeclaratorSuffix.moveAll f ss = ss.map (DeclaratorSuffix.move f) := by
  induction ss with
  | nil => rfl
  | cons s ss ih => rw [DeclaratorSuffix.moveAll, ih, List.map_cons]

@[simp] theorem Param.moveAll_eq_map (ps : List Param) :
    Param.moveAll f ps = ps.map (Param.move f) := by
  induction ps with
  | nil => rfl
  | cons p ps ih => rw [Param.moveAll, ih, List.map_cons]

end

end Stepwise

/-! ## Scanning a part of a text

The text from the start of one token to the end of another has, on its own, the tokens from the
one to the other, each where it stands in this part.
-/

namespace Stepwise

/-- Where a span in the text of the span `outer` stands in the whole text; columns of the first line
count from that of `outer`. -/
def Span.shift (outer inner : Span) : Span where
  start := outer.start + inner.start
  stop := outer.start + inner.stop
  line := outer.line + inner.line - 1
  column := if inner.line = 1 then outer.column + inner.column - 1 else inner.column

theorem Span.shift_through (outer s t : Span) :
    outer.shift (s.through t) = (outer.shift s).through (outer.shift t) := by
  rw [shift, through, through, Span.mk.injEq]
  exact ⟨rfl, (Nat.add_max_add_left _ _ _).symm, rfl, rfl⟩

namespace Position

/-- Each line and column is one at least. -/
theorem start_after_pos (cs : List Char) :
    1 ≤ (start.after cs).line ∧ 1 ≤ (start.after cs).column := by
  rw [start_after]
  exact ⟨Nat.le_add_right 1 _, Nat.le_add_right 1 _⟩

/-- The place after some characters, seen from where these begin. -/
theorem after_eq (base : Position) (cs : List Char) : base.after cs =
    ⟨base.offset + (start.after cs).offset, base.line + (start.after cs).line - 1,
      if (start.after cs).line = 1 then base.column + (start.after cs).column - 1
      else (start.after cs).column⟩ := by
  induction cs using List.reverseRecOn with
  | nil => simp [start]
  | append_singleton cs c ih =>
    obtain ⟨hline, hcolumn⟩ := start_after_pos cs
    rw [after_concat, after_concat, ih, next, next]
    split
    · simp only [Position.mk.injEq]
      refine ⟨by omega, by omega, ?_⟩
      rw [if_neg (by omega)]
    · simp only [Position.mk.injEq]
      refine ⟨by omega, trivial, ?_⟩
      split <;> omega

end Position

/-- The span between two places, seen from where the text of `outer` begins. -/
theorem Span.between_after {outer : Span} {base : Position}
    (hbase : base = ⟨outer.start, outer.line, outer.column⟩) (cs ds : List Char) :
    Span.between (base.after cs) (base.after ds) =
      outer.shift (.between (Position.start.after cs) (Position.start.after ds)) := by
  rw [base.after_eq cs, base.after_eq ds, hbase]
  rfl

namespace Scan

/-- Tokens of a text that follow others are the tokens from a place in it on. -/
theorem exists_from {r : Reader} {before ts : List Token}
    (h : (Scan.from r).tokens = .ok (before ++ ts)) (hts : ts ≠ []) :
    ∃ n ≤ r.rest.length, (Scan.from (r.drop n)).tokens = .ok ts := by
  induction before generalizing r with
  | nil => exact ⟨0, Nat.zero_le _, h⟩
  | cons t before ih =>
    obtain ⟨-, hcloses⟩ | ⟨k, n, l, us, hleads, hus, hrest⟩ := from_cases h
    · obtain ⟨-, hnil⟩ := List.cons.inj (hcloses.tokens_eq h)
      exact absurd (List.append_eq_nil_iff.mp hnil).2 hts
    · obtain ⟨-, rfl⟩ := List.cons.inj hus
      obtain ⟨j, hj, hfrom⟩ := ih hrest
      have hfits := hleads.fits
      rw [Reader.rest_drop, List.length_drop] at hj
      exact ⟨k + n + j, by omega, Reader.drop_drop r (k + n) j ▸ hfrom⟩

/-- The first token of a text is read from where it starts. -/
theorem exists_from_start {r : Reader} {t : Token} {ts : List Token}
    (h : (Scan.from r).tokens = .ok (t :: ts)) (ht : t.lexeme ≠ .endOfFile) :
    ∃ n ≤ r.rest.length, (Scan.from (r.drop n)).tokens = .ok (t :: ts) ∧
      (r.drop n).position = ⟨t.span.start, t.span.line, t.span.column⟩ := by
  obtain ⟨-, hcloses⟩ | ⟨k, n, l, us, hleads, hus, hrest⟩ := from_cases h
  · obtain ⟨rfl, -⟩ := List.cons.inj (hcloses.tokens_eq h)
    exact absurd rfl ht
  · have hk : k ≤ r.rest.length := by
      have hfits := hleads.fits
      omega
    refine ⟨k, hk, ?_, by rw [(List.cons.inj hus).1]; rfl⟩
    have htokens := tokens_of_gap hleads.gap (List.take_append_drop k r.rest).symm
    rwa [List.length_take_of_le hk, h, eq_comm] at htokens

/-- The text of some of the first tokens, scanned on its own, has these tokens. -/
theorem from_take {outer : Span} {base : Position}
    (hbase : base = ⟨outer.start, outer.line, outer.column⟩) {front rest : List Token}
    {r : Reader} {pre : List Char} (h : (Scan.from r).tokens = .ok (front ++ rest))
    (hfront : ∀ t ∈ front, t.lexeme ≠ .endOfFile) (hpre : r.position = base.after pre) :
    ∃ m ≤ r.rest.length, (∀ t ∈ front.getLast?, t.span.stop = r.position.offset + m) ∧
      (front = [] → m = 0) ∧
      ∃ front' mark, (Scan.from ⟨r.rest.take m, Position.start.after pre⟩).tokens =
        .ok (front' ++ [mark]) ∧ front = front'.map (Token.move outer.shift) := by
  induction front generalizing r pre with
  | nil =>
    refine ⟨0, Nat.zero_le _, ?_, fun _ => rfl, [], _, congrArg Scan.tokens (from_nil rfl), rfl⟩
    rintro t ⟨⟩
  | cons t front ih =>
    obtain ⟨-, hcloses⟩ | ⟨k, n, l, us, hleads, hus, hrest⟩ := from_cases h
    · obtain ⟨rfl, -⟩ := List.cons.inj (hcloses.tokens_eq h)
      exact absurd rfl (hfront _ List.mem_cons_self)
    obtain ⟨rfl, rfl⟩ := List.cons.inj hus
    have hfits := hleads.fits
    have hnext (j : Nat) : (r.drop j).position = base.after (pre ++ r.rest.take j) := by
      rw [Position.after_append, ← hpre]
      rfl
    obtain ⟨m, hm, hstop, hnil, front', mark, htokens, hmap⟩ :=
      ih hrest (fun t ht => hfront t (List.mem_cons_of_mem _ ht)) (hnext (k + n))
    rw [Reader.rest_drop, List.length_drop] at hm
    have hoffset (j : Nat) (hj : j ≤ r.rest.length) :
        (r.drop j).position.offset = r.position.offset + j := by
      rw [Reader.drop, Position.after_offset, List.length_take_of_le hj]
    refine ⟨k + n + m, by omega, fun t ht => ?_, fun h => absurd h (List.cons_ne_nil _ _), ?_⟩
    · cases front with
      | nil =>
        obtain rfl := Option.some.inj ht
        exact (hoffset (k + n) (by omega)).trans (by rw [hnil rfl, Nat.add_zero])
      | cons u us =>
        rw [List.getLast?_cons_cons] at ht
        rw [hstop t ht, hoffset (k + n) (by omega), Nat.add_assoc]
    · have hdrop (j : Nat) (hj : j ≤ k + n + m) :
          (⟨r.rest.take (k + n + m), Position.start.after pre⟩ : Reader).drop j =
            ⟨(r.rest.drop j).take (k + n + m - j),
              Position.start.after (pre ++ r.rest.take j)⟩ := by
        rw [Reader.drop, List.drop_take, List.take_take, Nat.min_eq_left hj,
          ← Position.after_append]
      have hleads' : Leads (r.rest.take (k + n + m)) k n l :=
        hleads.shares ((Text.Shares.take_self (by omega)).mono (Nat.le_add_right _ m))
      refine ⟨⟨l, .between (Position.start.after (pre ++ r.rest.take k))
        (Position.start.after (pre ++ r.rest.take (k + n)))⟩ :: front', mark, ?_, ?_⟩
      · rw [Leads.tokens_eq (r := ⟨_, _⟩) hleads', hdrop k (by omega), hdrop (k + n) (by omega),
          Nat.add_sub_cancel_left]
        exact congrArg (Except.map _) htokens
      · rw [List.map_cons, ← hmap, hnext, hnext, Span.between_after hbase]
        rfl

end Scan

end Stepwise
