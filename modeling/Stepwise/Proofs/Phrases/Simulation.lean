import Stepwise.Proofs.Phrases.Cutting

/-! # Every routine of an expression on a piece

One lemma for each routine says that what it gives within a piece, it gives on the piece alone
if the calls that it makes do so.
-/

namespace Stepwise

theorem Expr.move_ofPath (f : Span → Span) (sp : Span) (parts : List String) :
    (Expr.ofPath sp parts).move f = Expr.ofPath (f sp) parts := by
  unfold Expr.ofPath
  split <;> rfl

namespace Parse

open Tokens Script

namespace Call.Cuts

variable {k : Piece} {s₀' s₀ s' s : Tokens} {h' : s'.Shorter s₀'} {h : s.Shorter s₀}

/-- The script of the first call gives what the second one gives within the piece. -/
def Simulates (k : Piece) (c' c : Call) (R : c'.Value → c.Value → Prop) : Prop :=
  Follows k c'.stream.rest.length c'.script c.script fun _ v' v => R v' v

theorem simulates_pathTail (parts : List String) (hs₀ : k.Holds s₀' s₀) (hs : k.Holds s' s) :
    Simulates k (.pathTail s₀' parts s' h') (.pathTail s₀ parts s h) (Alike k id) := by
  refine .bind (.offer hs (hs.accept? _) (.done ⟨hs, rfl⟩) fun _ t' _ t _ ht => ?_)
  refine .bind (.since (.demand ht ht.expectIdentifier fun part u' _ u _ hu => ?_))
  exact .ask (.pathTail (part :: parts) hs₀ hu) fun _ _ hr => hr

theorem simulates_path (hs : k.Holds s' s) : Simulates k (.path s') (.path s) (Alike k id) := by
  refine .bind (.demand hs hs.expectIdentifier fun first t' _ t _ ht => ?_)
  exact .ask (.pathTail [first] hs ht) fun _ _ hr => hr

theorem simulates_typeSpec (hs : k.Holds s' s) :
    Simulates k (.typeSpec s') (.typeSpec s) (Alike k (TypeSpec.move k.move)) :=
  .ask (.words [] [] hs hs) fun _ _ hr => hr

theorem simulates_stringTail (width : CharWidth) (text : String) (hs₀ : k.Holds s₀' s₀)
    (hs : k.Holds s' s) :
    Simulates k (.stringTail s₀' width text s' h') (.stringTail s₀ width text s h)
      (Alike k id) := by
  refine .bind (.offer hs (hs.take? _) (.done ⟨hs, rfl⟩) fun more t' _ t _ ht => ?_)
  exact .ask (.stringTail width (text ++ more.1) hs₀ ht) fun _ _ hr => hr

theorem simulates_pointerWords (isConst : Bool) (hs₀ : k.Holds s₀' s₀) (hs : k.Holds s' s) :
    Simulates k (.pointerWords s₀' isConst s' h') (.pointerWords s₀ isConst s h)
      (Alike k id) := by
  refine .bind (.offer hs (hs.take? _) (.done ⟨hs, rfl⟩) fun w t' _ t _ ht => ?_)
  exact .ask (.pointerWords (isConst || w == "const") hs₀ ht) fun _ _ hr => hr

theorem simulates_pointers (marks : List Bool) (hs : k.Holds s' s) :
    Simulates k (.pointers marks s') (.pointers marks s)
      fun v' v => k.Holds v'.2.1 v.2.1 ∧ v.1 = v'.1 := by
  refine .bind (.offer hs (hs.accept? _) (.done ⟨hs, rfl⟩) fun _ t' h₁' t h₁ ht => ?_)
  refine .bind (.ask (.pointerWords false hs ht) ?_)
  rintro ⟨_, u', _⟩ ⟨isConst, u, _⟩ ⟨(hu : k.Holds u' u), (rfl : isConst = _)⟩
  refine .bind (.ask (.pointers (isConst :: marks) hu) ?_)
  rintro ⟨_, v', _⟩ ⟨all, v, _⟩ ⟨(hv : k.Holds v' v), (rfl : all = _)⟩
  exact .done ⟨hv, rfl⟩

theorem simulates_expression (hs : k.Holds s' s) :
    Simulates k (.expression s') (.expression s) (Alike k (Expr.move k.move)) := by
  refine .bind (.ask (.assignment hs) ?_)
  rintro ⟨first', t', _⟩ ⟨first, t, _⟩ ⟨(ht : k.Holds t' t), (hfirst : first = _)⟩
  exact .ask (.commaTail hfirst hs ht) fun _ _ hr => hr

theorem simulates_disjunction (hs : k.Holds s' s) :
    Simulates k (.disjunction s') (.disjunction s) (Alike k (Expr.move k.move)) := by
  refine .bind (.ask (.conjunction hs) ?_)
  rintro ⟨first', t', _⟩ ⟨first, t, _⟩ ⟨(ht : k.Holds t' t), (hfirst : first = _)⟩
  exact .ask (.disjunctionTail hfirst hs ht) fun _ _ hr => hr

theorem simulates_conjunction (hs : k.Holds s' s) :
    Simulates k (.conjunction s') (.conjunction s) (Alike k (Expr.move k.move)) := by
  refine .bind (.ask (.binary 0 hs) ?_)
  rintro ⟨first', t', _⟩ ⟨first, t, _⟩ ⟨(ht : k.Holds t' t), (hfirst : first = _)⟩
  exact .ask (.conjunctionTail hfirst hs ht) fun _ _ hr => hr

theorem simulates_binary (least : Nat) (hs : k.Holds s' s) :
    Simulates k (.binary least s') (.binary least s) (Alike k (Expr.move k.move)) := by
  refine .bind (.ask (.unary hs) ?_)
  rintro ⟨first', t', _⟩ ⟨first, t, _⟩ ⟨(ht : k.Holds t' t), (hfirst : first = _)⟩
  exact .ask (.binaryTail least hfirst hs ht) fun _ _ hr => hr

theorem simulates_trailing (hs : k.Holds s' s) :
    Simulates k (.trailing s') (.trailing s) (Alike k (Expr.move k.move)) := by
  refine .bind (.ask (.primary hs) ?_)
  rintro ⟨first', t', _⟩ ⟨first, t, _⟩ ⟨(ht : k.Holds t' t), (hfirst : first = _)⟩
  exact .ask (.trailingTail hfirst hs ht) fun _ _ hr => hr

section

variable {left' left : Expr} (hleft : left = left'.move k.move) (hs₀ : k.Holds s₀' s₀)
  (hs : k.Holds s' s)

include hleft hs₀ hs

theorem simulates_commaTail :
    Simulates k (.commaTail s₀' left' s' h') (.commaTail s₀ left s h)
      (Alike k (Expr.move k.move)) := by
  refine .bind (.offer hs (hs.accept? _) (.done ⟨hs, hleft⟩) fun _ t' h₁' t h₁ ht => ?_)
  refine .bind (.since (.ask (.assignment ht) ?_))
  rintro ⟨right', u', h₂'⟩ ⟨right, u, h₂⟩ ⟨(hu : k.Holds u' u), (hright : right = _)⟩
  have hspan := hs₀.spanTo_of_shorter hu (h₂'.trans (h₁'.trans h'))
  exact .ask (.commaTail (by simp only [Expr.move, hspan, hleft, hright]) hs₀ hu) fun _ _ hr => hr

theorem simulates_disjunctionTail :
    Simulates k (.disjunctionTail s₀' left' s' h') (.disjunctionTail s₀ left s h)
      (Alike k (Expr.move k.move)) := by
  refine .bind (.offer hs (hs.accept? _) (.done ⟨hs, hleft⟩) fun _ t' h₁' t h₁ ht => ?_)
  refine .bind (.since (.ask (.conjunction ht) ?_))
  rintro ⟨right', u', h₂'⟩ ⟨right, u, h₂⟩ ⟨(hu : k.Holds u' u), (hright : right = _)⟩
  have hspan := hs₀.spanTo_of_shorter hu (h₂'.trans (h₁'.trans h'))
  exact .ask (.disjunctionTail (by simp only [Expr.move, hspan, hleft, hright]) hs₀ hu)
    fun _ _ hr => hr

theorem simulates_conjunctionTail :
    Simulates k (.conjunctionTail s₀' left' s' h') (.conjunctionTail s₀ left s h)
      (Alike k (Expr.move k.move)) := by
  refine .bind (.offer hs (hs.accept? _) (.done ⟨hs, hleft⟩) fun _ t' h₁' t h₁ ht => ?_)
  refine .bind (.since (.ask (.binary 0 ht) ?_))
  rintro ⟨right', u', h₂'⟩ ⟨right, u, h₂⟩ ⟨(hu : k.Holds u' u), (hright : right = _)⟩
  have hspan := hs₀.spanTo_of_shorter hu (h₂'.trans (h₁'.trans h'))
  exact .ask (.conjunctionTail (by simp only [Expr.move, hspan, hleft, hright]) hs₀ hu)
    fun _ _ hr => hr

theorem simulates_binaryTail (least : Nat) :
    Simulates k (.binaryTail least s₀' left' s' h') (.binaryTail least s₀ left s h)
      (Alike k (Expr.move k.move)) := by
  refine .bind (.offer hs (hs.take? _) (.done ⟨hs, hleft⟩) fun op t' h₁' t h₁ ht => ?_)
  refine .bind (.since (.ask (.binary (op.2 + 1) ht) ?_))
  rintro ⟨right', u', h₂'⟩ ⟨right, u, h₂⟩ ⟨(hu : k.Holds u' u), (hright : right = _)⟩
  have hspan := hs₀.spanTo_of_shorter hu (h₂'.trans (h₁'.trans h'))
  exact .ask (.binaryTail least (by simp only [Expr.move, hspan, hleft, hright]) hs₀ hu)
    fun _ _ hr => hr

end

theorem simulates_assignment (hs : k.Holds s' s) :
    Simulates k (.assignment s') (.assignment s) (Alike k (Expr.move k.move)) := by
  refine .bind (.ask (.conditional hs) ?_)
  rintro ⟨target', t', h₁'⟩ ⟨target, t, h₁⟩ ⟨(ht : k.Holds t' t), (htarget : target = _)⟩
  refine .bind (.offer ht (ht.take? _) (.done ⟨ht, htarget⟩) fun op u' h₂' u h₂ hu => ?_)
  simp only [since_some]
  refine .sees hu _ (Takes.ask_phrase rfl rfl).since.bind_left
    (Takes.ask_phrase rfl rfl).since.bind_left ?_ ?_
  · refine .bind (.since (.ask (.braceList hu) ?_))
    rintro ⟨⟨items', span'⟩, v', h₃'⟩ ⟨⟨items, span⟩, v, h₃⟩ ⟨(hv : k.Holds v' v), heq⟩
    have hspan := hs.spanTo_of_shorter hv (h₃'.trans (h₂'.trans h₁'))
    cases heq
    exact .done ⟨hv, by simp [Parsed.since, Expr.move, hspan, htarget]⟩
  · refine .bind (.since (.ask (.assignment hu) ?_))
    rintro ⟨value', v', h₃'⟩ ⟨value, v, h₃⟩ ⟨(hv : k.Holds v' v), (hvalue : value = _)⟩
    have hspan := hs.spanTo_of_shorter hv (h₃'.trans (h₂'.trans h₁'))
    exact .done ⟨hv, by simp only [Parsed.since, Expr.move, hspan, htarget, hvalue]⟩

theorem simulates_conditional (hs : k.Holds s' s) :
    Simulates k (.conditional s') (.conditional s) (Alike k (Expr.move k.move)) := by
  refine .bind (.ask (.disjunction hs) ?_)
  rintro ⟨c', t', h₁'⟩ ⟨c, t, h₁⟩ ⟨(ht : k.Holds t' t), (hc : c = _)⟩
  refine .bind (.offer ht (ht.accept? _) (.done ⟨ht, hc⟩) fun _ u' h₂' u h₂ hu => ?_)
  simp only [since_some]
  refine .bind (.since (.ask (.expression hu) ?_))
  rintro ⟨e', v', h₃'⟩ ⟨e, v, h₃⟩ ⟨(hv : k.Holds v' v), (he : e = _)⟩
  refine .bind (.since (.demand hv (hv.expect _ _) fun _ w' h₄' w h₄ hw => ?_))
  refine .bind (.since (.ask (.assignment hw) ?_))
  rintro ⟨d', x', h₅'⟩ ⟨d, x, h₅⟩ ⟨(hx : k.Holds x' x), (hd : d = _)⟩
  have hspan := hs.spanTo_of_shorter hx
    (h₅'.trans (h₄'.trans (h₃'.trans (h₂'.trans h₁'))))
  exact .done ⟨hx, by simp only [Parsed.since, Expr.move, hspan, hc, he, hd]⟩

theorem simulates_words (specifiers ws : List String) {h' : s'.rest.length ≤ s₀'.rest.length}
    {h : s.rest.length ≤ s₀.rest.length} {hw' : ws ≠ [] → s'.Shorter s₀'}
    {hw : ws ≠ [] → s.Shorter s₀} (hs₀ : k.Holds s₀' s₀) (hs : k.Holds s' s) :
    Simulates k (.words s₀' specifiers ws s' h' hw') (.words s₀ specifiers ws s h hw)
      (Alike k (TypeSpec.move k.move)) := by
  refine .bind (.offer hs (hs.wordOf? ws ▸ hs.take? _) ?_ fun w t' h₁' t h₁ ht => ?_)
  · by_cases hne : ws = []
    · simp only [hne, dite_true]
      exact .demand_fail
    · simp only [hne, dite_false]
      refine .done ⟨hs, ?_⟩
      simp only [TypeSpec.move, hs₀.spanTo_of_shorter hs (hw' hne)]
  · cases w with
    | specifier w => exact .ask (.words (w :: specifiers) ws hs₀ ht) fun _ _ hr => hr
    | word w => exact .ask (.words specifiers (w :: ws) hs₀ ht) fun _ _ hr => hr
    | structWord =>
      refine .bind (.since (.demand ht ht.expectIdentifier fun name u' _ u _ hu => ?_))
      exact .ask (.words specifiers (name :: ws) hs₀ hu) fun _ _ hr => hr

theorem simulates_trailingTail {e' e : Expr} (he : e = e'.move k.move) (hs₀ : k.Holds s₀' s₀)
    (hs : k.Holds s' s) :
    Simulates k (.trailingTail s₀' e' s' h') (.trailingTail s₀ e s h)
      (Alike k (Expr.move k.move)) := by
  refine .bind (.offer hs (hs.accept? _) ?_ fun _ t' h₁' t h₁ ht => ?_)
  · refine .bind (.offer hs (hs.accept? _) ?_ fun _ t' h₁' t h₁ ht => ?_)
    · refine .bind (.offer hs (hs.take? _) ?_ fun throughPointer t' h₁' t h₁ ht => ?_)
      · refine .bind (.offer hs (hs.take? _) (.done ⟨hs, he⟩) fun op t' h₁' t h₁ ht => ?_)
        have hspan := hs₀.spanTo_of_shorter ht (h₁'.trans h')
        exact .ask (.trailingTail (by simp only [Expr.move, hspan, he]) hs₀ ht) fun _ _ hr => hr
      · refine .bind (.since (.demand ht ht.expectIdentifier fun name u' h₂' u h₂ hu => ?_))
        have hspan := hs₀.spanTo_of_shorter hu (h₂'.trans (h₁'.trans h'))
        exact .ask (.trailingTail (by simp only [Expr.move, hspan, he]) hs₀ hu) fun _ _ hr => hr
    · refine .bind (.ask (.argumentsTail (List.map_nil).symm hs ht) ?_)
      rintro ⟨args', u', h₂'⟩ ⟨args, u, h₂⟩ ⟨(hu : k.Holds u' u), (hargs : args = _)⟩
      have hspan := hs₀.spanTo_of_shorter hu (h₂'.trans h')
      exact .ask (.trailingTail (by simp only [Expr.move, Expr.moveAll_eq_map, hspan, he, hargs])
        hs₀ hu) fun _ _ hr => hr
  · refine .bind (.since (.ask (.expression ht) ?_))
    rintro ⟨index', u', h₂'⟩ ⟨index, u, h₂⟩ ⟨(hu : k.Holds u' u), (hindex : index = _)⟩
    refine .bind (.since (.demand hu (hu.expect _ _) fun _ v' h₃' v h₃ hv => ?_))
    have hspan := hs₀.spanTo_of_shorter hv (h₃'.trans (h₂'.trans (h₁'.trans h')))
    exact .ask (.trailingTail (by simp only [Expr.move, hspan, he, hindex]) hs₀ hv) fun _ _ hr => hr

theorem simulates_argumentsTail {args' args : List Expr}
    (hargs : args = args'.map (Expr.move k.move)) (hs₀ : k.Holds s₀' s₀) (hs : k.Holds s' s) :
    Simulates k (.argumentsTail s₀' args' s' h') (.argumentsTail s₀ args s h)
      (Alike k (List.map (Expr.move k.move))) := by
  refine .sees hs _ (Takes.demand _).bind_left (Takes.ask_phrase rfl rfl).bind_left ?_ ?_
  · refine .bind (.demand hs (hs.expect _ _) fun _ t' _ t _ ht => ?_)
    exact .done ⟨ht, by simp only [hargs, List.map_reverse]⟩
  · refine .bind (.ask (.assignment hs) ?_)
    rintro ⟨arg', t', _⟩ ⟨arg, t, _⟩ ⟨(ht : k.Holds t' t), (harg : arg = _)⟩
    have hmore : arg :: args = (arg' :: args').map (Expr.move k.move) := by
      rw [List.map_cons, harg, hargs]
    refine .bind (.offer ht (ht.accept? _) ?_ fun _ u' _ u _ hu => ?_)
    · simp only [since_none]
      refine .bind (.since (.demand ht (ht.expect _ _) fun _ u' _ u _ hu => ?_))
      exact .done ⟨hu, by simp only [hmore, List.map_reverse]⟩
    · exact .ask (.argumentsTail hmore hs₀ hu) fun _ _ hr => hr

theorem simulates_initializer (hs : k.Holds s' s) :
    Simulates k (.initializer s') (.initializer s) (Alike k (Initializer.move k.move)) := by
  refine .sees hs _ (Takes.ask_phrase rfl rfl).bind_left (Takes.ask_phrase rfl rfl).bind_left ?_ ?_
  · refine .bind (.ask (.braceList hs) ?_)
    rintro ⟨⟨items', span'⟩, t', _⟩ ⟨⟨items, span⟩, t, _⟩ ⟨(ht : k.Holds t' t), heq⟩
    cases heq
    exact .done ⟨ht, by simp only [Initializer.move, Initializer.moveAll_eq_map]⟩
  · refine .bind (.ask (.assignment hs) ?_)
    rintro ⟨e', t', _⟩ ⟨e, t, _⟩ ⟨(ht : k.Holds t' t), (he : e = _)⟩
    exact .done ⟨ht, by simp only [Initializer.move, he]⟩

theorem simulates_braceList (hs : k.Holds s' s) :
    Simulates k (.braceList s') (.braceList s)
      (Alike k (Prod.map (List.map (Initializer.move k.move)) k.move)) := by
  refine .bind (.demand hs (hs.expect _ _) fun _ t' _ t _ ht => ?_)
  exact .ask (.braceTail (List.map_nil).symm hs ht) fun _ _ hr => hr

theorem simulates_braceTail {items' items : List Initializer}
    (hitems : items = items'.map (Initializer.move k.move)) (hs₀ : k.Holds s₀' s₀)
    (hs : k.Holds s' s) :
    Simulates k (.braceTail s₀' items' s' h') (.braceTail s₀ items s h)
      (Alike k (Prod.map (List.map (Initializer.move k.move)) k.move)) := by
  refine .sees hs _ (Takes.demand _).bind_left (Takes.ask_phrase rfl rfl).bind_left ?_ ?_
  · refine .bind (.demand hs (hs.expect _ _) fun _ t' h₁' t _ ht => ?_)
    have hspan := hs₀.spanTo_of_shorter ht (h₁'.trans h')
    exact .done ⟨ht, by simp only [hitems, hspan, Prod.map, List.map_reverse]⟩
  · refine .bind (.ask (.initializer hs) ?_)
    rintro ⟨item', t', h₁'⟩ ⟨item, t, _⟩ ⟨(ht : k.Holds t' t), (hitem : item = _)⟩
    have hmore : item :: items = (item' :: items').map (Initializer.move k.move) := by
      rw [List.map_cons, hitem, hitems]
    refine .bind (.offer ht (ht.accept? _) ?_ fun _ u' _ u _ hu => ?_)
    · simp only [since_none]
      refine .bind (.since (.demand ht (ht.expect _ _) fun _ u' h₂' u _ hu => ?_))
      have hspan := hs₀.spanTo_of_shorter hu (h₂'.trans (h₁'.trans h'))
      exact .done ⟨hu, by simp only [Parsed.since, hmore, hspan, Prod.map, List.map_reverse]⟩
    · exact .ask (.braceTail hmore hs₀ hu) fun _ _ hr => hr

theorem simulates_defaultArgument (hs : k.Holds s' s) :
    Simulates k (.defaultArgument s₀' s' h') (.defaultArgument s₀ s h)
      (Alike k (Option.map (Expr.move k.move))) := by
  refine .bind (.offer hs (hs.accept? _) (.done ⟨hs, rfl⟩) fun _ t' _ t _ ht => ?_)
  refine .bind (.since (.ask (.assignment ht) ?_))
  rintro ⟨value', u', _⟩ ⟨value, u, _⟩ ⟨(hu : k.Holds u' u), (hvalue : value = _)⟩
  exact .done ⟨hu, by simp only [hvalue, Option.map_some]⟩

theorem simulates_primary (hne : 0 < s'.rest.length) (hs : k.Holds s' s) :
    Simulates k (.primary s') (.primary s) (Alike k (Expr.move k.move)) := by
  refine .bind (.offer hs (hs.take? _) ?_ fun value t' h₁' t h₁ ht => ?_)
  · refine .bind (.offer hs (hs.take? _) ?_ fun text t' h₁' t h₁ ht => ?_)
    · refine .ite (by rw [hs.peek hne]) (fun _ => ?_) fun _ => ?_
      · refine .bind (.ask (.path hs) ?_)
        rintro ⟨parts, t', h₁'⟩ ⟨_, t, h₁⟩ ⟨(ht : k.Holds t' t), (rfl : _ = parts)⟩
        have hspan := hs.spanTo_of_shorter ht h₁'
        exact .done ⟨ht, by simp only [Expr.move_ofPath, hspan]⟩
      · refine .bind (.offer hs (hs.accept? _) ?_ fun _ t' h₁' t h₁ ht => ?_)
        · refine .bind (.offer hs (hs.accept? _) ?_ fun _ t' h₁' t h₁ ht => ?_)
          · refine .ite (by rw [hs.sees hne]) (fun _ => ?_) fun _ => ?_
            · refine .bind (.ask (.braceList hs) ?_)
              rintro ⟨⟨items', span'⟩, t', _⟩ ⟨⟨items, span⟩, t, _⟩ ⟨(ht : k.Holds t' t), heq⟩
              cases heq
              exact .done ⟨ht, by simp only [Expr.move, Initializer.moveAll_eq_map]⟩
            · refine .bind (.offer hs (hs.acceptKeyword? _) .demand_fail
                fun _ t' h₁' t h₁ ht => ?_)
              refine .bind (.since (.demand ht (ht.expect _ _) fun _ u' h₂' u h₂ hu => ?_))
              refine .bind (.since (.ask (.typeName hu) ?_))
              rintro ⟨⟨spec', target'⟩, v', h₃'⟩ ⟨⟨spec, target⟩, v, h₃⟩ ⟨(hv : k.Holds v' v), heq⟩
              refine .bind (.since (.demand hv (hv.expect _ _) fun _ w' h₄' w h₄ hw => ?_))
              cases heq (Nat.zero_lt_of_lt h₄')
              refine .bind (.since (.demand hw (hw.expect _ _) fun _ x' h₅' x h₅ hx => ?_))
              refine .bind (.since (.ask (.expression hx) ?_))
              rintro ⟨e', y', h₆'⟩ ⟨e, y, h₆⟩ ⟨(hy : k.Holds y' y), (he : e = _)⟩
              refine .bind (.since (.demand hy (hy.expect _ _) fun _ z' h₇' z h₇ hz => ?_))
              have hspan := hs.spanTo_of_shorter hz (h₇'.trans <| h₆'.trans <| h₅'.trans <|
                h₄'.trans <| h₃'.trans <| h₂'.trans h₁')
              exact .done ⟨hz, by simp only [Expr.move, hspan, he]⟩
          · refine .bind (.since (.ask (.expression ht) ?_))
            rintro ⟨e', u', _⟩ ⟨e, u, _⟩ ⟨(hu : k.Holds u' u), (he : e = _)⟩
            refine .bind (.since (.demand hu (hu.expect _ _) fun _ v' _ v _ hv => ?_))
            exact .done ⟨hv, he⟩
        · refine .bind (.since (.ask (.path ht) ?_))
          rintro ⟨parts, u', h₂'⟩ ⟨_, u, h₂⟩ ⟨(hu : k.Holds u' u), (rfl : _ = parts)⟩
          have hspan := hs.spanTo_of_shorter hu (h₂'.trans h₁')
          exact .done ⟨hu, by simp only [Expr.move, hspan]⟩
    · refine .bind (.ask (.stringTail text.2 text.1 hs ht) ?_)
      rintro ⟨value, u', h₂'⟩ ⟨_, u, h₂⟩ ⟨(hu : k.Holds u' u), (rfl : _ = value)⟩
      have hspan := hs.spanTo_of_shorter hu h₂'
      exact .done ⟨hu, by simp only [Expr.move, hspan]⟩
  · have hspan := hs.spanTo_of_shorter ht h₁'
    exact .done ⟨ht, by simp only [Expr.move, hspan]⟩

theorem simulates_typeName (hs : k.Holds s' s) :
    Simulates k (.typeName s') (.typeName s)
      (AlikeBefore k (Prod.map (TypeSpec.move k.move) (Declarator.move k.move))) := by
  refine .bind (.ask (.typeSpec hs) ?_)
  rintro ⟨spec', t', _⟩ ⟨spec, t, _⟩ ⟨(ht : k.Holds t' t), (hspec : spec = _)⟩
  refine .bind (.ask (.declarator true hs ht) ?_)
  rintro ⟨target', u', _⟩ ⟨target, u, _⟩ ⟨(hu : k.Holds u' u), htarget⟩
  exact .done ⟨hu, fun hne => by simp only [Prod.map, hspec, ← htarget hne]⟩

theorem simulates_unary (hs : k.Holds s' s) :
    Simulates k (.unary s') (.unary s) (Alike k (Expr.move k.move)) := by
  refine .bind (.offer hs (hs.take? _) ?_ fun op t' h₁' t h₁ ht => ?_)
  · obtain hparen | ⟨hlen, q, hq⟩ := hs.typeParen
    · refine .bind (.offer hs hparen ?_ fun _ t' h₁' t h₁ ht => ?_)
      · refine .bind (.offer hs (hs.acceptKeyword? _) ?_ fun _ t' h₁' t h₁ ht => ?_)
        · exact .ask (.trailing hs) fun _ _ hr => hr
        · obtain hparen | ⟨hlen, q, hq⟩ := ht.typeParen
          · refine .bind (.offer ht hparen ?_ fun _ u' h₂' u h₂ hu => ?_)
            · simp only [since_none]
              refine .bind (.since (.ask (.unary ht) ?_))
              rintro ⟨e', u', h₂'⟩ ⟨e, u, h₂⟩ ⟨(hu : k.Holds u' u), (he : e = _)⟩
              have hspan := hs.spanTo_of_shorter hu (h₂'.trans h₁')
              exact .done ⟨hu, by simp only [Parsed.since, Expr.move, hspan, he]⟩
            · simp only [since_some]
              refine .bind (.since (.ask (.typeName hu) ?_))
              rintro ⟨⟨spec', target'⟩, v', h₃'⟩ ⟨⟨spec, target⟩, v, h₃⟩ ⟨(hv : k.Holds v' v), heq⟩
              refine .bind (.since (.demand hv (hv.expect _ _) fun _ w' h₄' w h₄ hw => ?_))
              cases heq (Nat.zero_lt_of_lt h₄')
              have hspan := hs.spanTo_of_shorter hw (h₄'.trans <| h₃'.trans <| h₂'.trans h₁')
              exact .done ⟨hw, by simp only [Parsed.since, Expr.move, hspan]⟩
          · dsimp only
            rw [hq]
            refine .of_takes (m := 1 + (1 + 1)) (.offer_some ?_) (by omega)
            exact .bind (Takes.ask_phrase rfl rfl).since fun _ => (Takes.demand _).since.bind_left
      · refine .bind (.since (.ask (.typeName ht) ?_))
        rintro ⟨⟨spec', target'⟩, u', h₂'⟩ ⟨⟨spec, target⟩, u, h₂⟩ ⟨(hu : k.Holds u' u), heq⟩
        refine .bind (.since (.demand hu (hu.expect _ _) fun _ v' h₃' v h₃ hv => ?_))
        cases heq (Nat.zero_lt_of_lt h₃')
        refine .bind (.since (.ask (.unary hv) ?_))
        rintro ⟨e', w', h₄'⟩ ⟨e, w, h₄⟩ ⟨(hw : k.Holds w' w), (he : e = _)⟩
        have hspan := hs.spanTo_of_shorter hw (h₄'.trans <| h₃'.trans <| h₂'.trans h₁')
        exact .done ⟨hw, by simp only [Expr.move, hspan, he]⟩
    · rw [hq]
      refine .of_takes (m := 1 + (1 + 1)) (.offer_some ?_) (by omega)
      exact .bind (Takes.ask_phrase rfl rfl).since fun _ => (Takes.demand _).since.bind_left
  · refine .bind (.since (.ask (.unary ht) ?_))
    rintro ⟨e', u', h₂'⟩ ⟨e, u, h₂⟩ ⟨(hu : k.Holds u' u), (he : e = _)⟩
    have hspan := hs.spanTo_of_shorter hu (h₂'.trans h₁')
    exact .done ⟨hu, by simp only [Expr.move, hspan, he]⟩

theorem simulates_declarator (allowAbstract : Bool) (hs₀ : k.Holds s₀' s₀) (hs : k.Holds s' s) :
    Simulates k (.declarator allowAbstract s₀' s' h') (.declarator allowAbstract s₀ s h)
      (AlikeBefore k (Declarator.move k.move)) := by
  refine .bind (.ask (.pointers [] hs) ?_)
  rintro ⟨_, t', h₁'⟩ ⟨marks, t, h₁⟩ ⟨(ht : k.Holds t' t), (rfl : marks = _)⟩
  have hskip := ht.skip .amp
  dsimp only
  generalize t'.skip .amp = r' at hskip ⊢
  generalize t.skip .amp = r at hskip ⊢
  obtain ⟨reference', u', hu'⟩ := r'
  obtain ⟨reference, u, hu⟩ := r
  refine .bind (.takeTo ht hu fun hle => ?_)
  obtain ⟨(rfl : reference' = reference), (hu : k.Holds u' u)⟩ := hskip hle
  refine ⟨hu, .bind (.offer hu (hu.take? _) ?_ fun name v' h₃' v h₃ hv => ?_)⟩
  · obtain hparen | ⟨q, hq, hlen⟩ := hu.declaratorParen
    · refine .bind (.offer hu hparen ?_ fun _ v' h₃' v h₃ hv => ?_)
      · cases allowAbstract with
        | true =>
          exact .ask (.suffixesTail _ _ rfl (List.map_nil).symm hs₀ hs hu (by omega))
            fun _ _ hr => hr
        | false => exact .demand_fail
      · refine .bind (.ask (.declarator allowAbstract hu hv) ?_)
        rintro ⟨inner', w', h₄'⟩ ⟨inner, w, h₄⟩ ⟨(hw : k.Holds w' w), hinner⟩
        refine .bind (.since (.demand hw (hw.expect _ _) fun _ x' h₅' x h₅ hx => ?_))
        have hinner : inner = _ := hinner (Nat.zero_lt_of_lt h₅')
        exact .ask (.suffixesTail _ _ (by simp only [DeclaratorBase.move, hinner])
          (List.map_nil).symm hs₀ hs hx (by omega)) fun _ _ hr => hr
    · rw [hq]
      obtain hlen | ⟨hlen, hname⟩ := hlen
      · exact .of_takes (.offer_some <| .bind_right fun _ => (Takes.demand _).since.bind_left)
          (Nat.lt_succ_of_le hlen)
      · refine .of_takes (m := 1 + (1 + 1)) (.offer_some ?_) (by omega)
        exact .bind (takes_declarator _ _ _ _ hname) fun _ => (Takes.demand _).since.bind_left
  · exact .ask (.suffixesTail _ _ rfl (List.map_nil).symm hs₀ hs hv (by omega)) fun _ _ hr => hr

theorem simulates_paramsTail {params' params : List Param}
    (hparams : params = params'.map (Param.move k.move)) (hs₀ : k.Holds s₀' s₀)
    (hs : k.Holds s' s) :
    Simulates k (.paramsTail s₀' params' s' h') (.paramsTail s₀ params s h)
      (Alike k (Prod.map (List.map (Param.move k.move)) id)) := by
  refine .sees hs _ (Takes.demand _).bind_left
    (.offer_bind (Takes.ask_phrase rfl rfl).bind_left) ?_ ?_
  · refine .bind (.demand hs (hs.expect _ _) fun _ t' _ t _ ht => ?_)
    exact .done ⟨ht, by simp only [hparams, Prod.map, id, List.map_reverse]⟩
  · refine .bind (.offer hs (hs.accept? _) ?_ fun _ t' h₁' t h₁ ht => ?_)
    · refine .bind (.ask (.typeSpec hs) ?_)
      rintro ⟨spec', t', h₁'⟩ ⟨spec, t, h₁⟩ ⟨(ht : k.Holds t' t), (hspec : spec = _)⟩
      refine .bind (.ask (.declarator true hs ht) ?_)
      rintro ⟨decl', u', h₂'⟩ ⟨decl, u, h₂⟩ ⟨(hu : k.Holds u' u), hdecl⟩
      refine .bind (.ask_within (.defaultArgument hs hu) ?_)
      rintro ⟨value', v', h₃'⟩ ⟨value, v, h₃⟩ ⟨(hv : k.Holds v' v), (hvalue : value = _)⟩
        (hle : v'.rest.length ≤ u'.rest.length)
      have hspan := hs.spanTo_of_shorter hv h₃'
      have hmore (hne : 0 < v'.rest.length) : .mk (s.spanTo v) spec decl value :: params =
          (.mk (s'.spanTo v') spec' decl' value' :: params').map (Param.move k.move) := by
        have hdecl : decl = _ := hdecl (Nat.lt_of_lt_of_le hne hle)
        simp only [List.map_cons, Param.move, Expr.moveOption_eq_map, hspan, hspec, hdecl, hvalue,
          hparams]
      refine .bind (.offer hv (hv.accept? _) ?_ fun _ w' h₄' w h₄ hw => ?_)
      · simp only [since_none]
        refine .bind (.since (.demand hv (hv.expect _ _) fun _ w' h₄' w h₄ hw => ?_))
        refine .done ⟨hw, ?_⟩
        simp only [hmore (Nat.zero_lt_of_lt h₄'), Prod.map, id, List.map_reverse]
      · exact .ask (.paramsTail (hmore (Nat.zero_lt_of_lt h₄')) hs₀ hw) fun _ _ hr => hr
    · refine .bind (.since (.demand ht (ht.expect _ _) fun _ u' h₂' u h₂ hu => ?_))
      exact .done ⟨hu, by simp only [hparams, Prod.map, id, List.map_reverse]⟩

theorem simulates_suffixesTail (marks : List Bool) (reference : Bool)
    {base' base : DeclaratorBase} {suffixes' suffixes : List DeclaratorSuffix}
    {start' start : Tokens} (hbase : base = base'.move k.move)
    (hsuffixes : suffixes = suffixes'.map (DeclaratorSuffix.move k.move))
    (hs₀ : k.Holds s₀' s₀) (hstart : k.Holds start' start) (hs : k.Holds s' s)
    (hle : s'.rest.length ≤ start'.rest.length) :
    Simulates k (.suffixesTail s₀' start' marks reference base' suffixes' s' h')
      (.suffixesTail s₀ start marks reference base suffixes s h)
      (AlikeBefore k (Declarator.move k.move)) := by
  refine .bind (.offer hs (hs.accept? _) ?_ fun _ t' h₁' t h₁ ht => ?_)
  · refine .bind (.offer hs ?_ (.done ⟨hs, fun hne => ?_⟩) fun _ t' h₁' t h₁ ht => ?_)
    · subst hbase
      cases base' with
      | anonymous => exact .none
      | named name => exact hs.accept? _
      | nested inner => exact hs.accept? _
    · have hspan := hstart.spanTo hs (Nat.lt_of_lt_of_le hne hle)
        (Nat.lt_of_lt_of_le h' hs₀.fits)
      simp only [Declarator.move, DeclaratorSuffix.moveAll_eq_map, hspan, hbase, hsuffixes,
        List.map_reverse]
    · dsimp only
      obtain hu | ⟨hlen, hlt⟩ := ht.skipVoid
      · refine .bind (.takeTo ht t.skipVoid.2 fun _ => ⟨hu, ?_⟩)
        refine .bind (.ask (.paramsTail (List.map_nil).symm hs hu) ?_)
        rintro ⟨⟨params', variadic⟩, v', h₂'⟩ ⟨⟨params, _⟩, v, h₂⟩ ⟨(hv : k.Holds v' v), heq⟩
        cases heq
        exact .ask (.suffixesTail marks reference hbase (by
          simp only [hsuffixes, List.map_cons, DeclaratorSuffix.move, Param.moveAll_eq_map, id])
          hs₀ hstart hv (by omega)) fun _ _ hr => hr
      · refine .of_takes (m := 1 + 1) ?_ (by omega)
        exact (Takes.takeTo.mono (by omega)).bind fun _ => (takes_paramsTail _ _ _ _).bind_left
  · refine .bind (.offer ht (ht.accept? _) ?_ fun _ u' h₂' u h₂ hu => ?_)
    · simp only [since_none]
      refine .bind (.since (.ask (.expression ht) ?_))
      rintro ⟨size', u', h₂'⟩ ⟨size, u, h₂⟩ ⟨(hu : k.Holds u' u), (hsize : size = _)⟩
      refine .bind (.since (.demand hu (hu.expect _ _) fun _ v' h₃' v h₃ hv => ?_))
      exact .ask (.suffixesTail marks reference hbase (by
        simp only [Parsed.since, hsuffixes, List.map_cons, DeclaratorSuffix.move, hsize,
          Expr.moveOption_eq_map, Option.map_some])
        hs₀ hstart hv (by omega)) fun _ _ hr => hr
    · simp only [since_some]
      exact .ask (.suffixesTail marks reference hbase (by rw [hsuffixes]; rfl) hs₀ hstart hu
        (by omega)) fun _ _ hr => hr

/-- On the piece, a script that makes calls which are answered alike gives the same result. -/
theorem simulates {c' c : Call} {R : c'.Value → c.Value → Prop} (h : Cuts k c' c R)
    (hne : ∀ s', c' = .primary s' → 0 < s'.rest.length) : Simulates k c' c R := by
  cases h with
  | pathTail parts hs₀ hs => exact simulates_pathTail parts hs₀ hs
  | path hs => exact simulates_path hs
  | words specifiers ws hs₀ hs => exact simulates_words specifiers ws hs₀ hs
  | typeSpec hs => exact simulates_typeSpec hs
  | stringTail width text hs₀ hs => exact simulates_stringTail width text hs₀ hs
  | pointerWords isConst hs₀ hs => exact simulates_pointerWords isConst hs₀ hs
  | pointers marks hs => exact simulates_pointers marks hs
  | expression hs => exact simulates_expression hs
  | commaTail hleft hs₀ hs => exact simulates_commaTail hleft hs₀ hs
  | assignment hs => exact simulates_assignment hs
  | conditional hs => exact simulates_conditional hs
  | disjunction hs => exact simulates_disjunction hs
  | disjunctionTail hleft hs₀ hs => exact simulates_disjunctionTail hleft hs₀ hs
  | conjunction hs => exact simulates_conjunction hs
  | conjunctionTail hleft hs₀ hs => exact simulates_conjunctionTail hleft hs₀ hs
  | binary least hs => exact simulates_binary least hs
  | binaryTail least hleft hs₀ hs => exact simulates_binaryTail hleft hs₀ hs least
  | unary hs => exact simulates_unary hs
  | trailing hs => exact simulates_trailing hs
  | trailingTail he hs₀ hs => exact simulates_trailingTail he hs₀ hs
  | argumentsTail hargs hs₀ hs => exact simulates_argumentsTail hargs hs₀ hs
  | primary hs => exact simulates_primary (hne _ rfl) hs
  | initializer hs => exact simulates_initializer hs
  | braceList hs => exact simulates_braceList hs
  | braceTail hitems hs₀ hs => exact simulates_braceTail hitems hs₀ hs
  | typeName hs => exact simulates_typeName hs
  | declarator allowAbstract hs₀ hs => exact simulates_declarator allowAbstract hs₀ hs
  | suffixesTail marks reference hbase hsuffixes hs₀ hstart hs hle =>
    exact simulates_suffixesTail marks reference hbase hsuffixes hs₀ hstart hs hle
  | paramsTail hparams hs₀ hs => exact simulates_paramsTail hparams hs₀ hs
  | defaultArgument hs₀ hs => exact simulates_defaultArgument hs

end Call.Cuts

/-- What a call gives within a piece, the same call gives on the piece alone. -/
theorem Call.carries {k : Piece} {c : Call} {v : c.Value} (hv : c.answer = .ok v) :
    Carries k c v := by
  induction c using lower_wellFounded.induction with
  | h c ih =>
    refine ⟨hv, fun c' R hcuts hle => ?_⟩
    have hlen := hcuts.stream.length
    have hne (s' : Tokens) (hc' : c' = .primary s') : 0 < s'.rest.length := by
      subst hc'
      cases hcuts
      have hshorter := v.shorter
      change k.beyond.length ≤ v.next.rest.length at hle
      simp only [Call.stream] at hlen
      omega
    obtain ⟨v', hv', hr⟩ := hcuts.simulates hne v _
      (c.gives hv fun _ _ _ hlower hv' => ih _ hlower hv') (by omega)
    exact ⟨v', c'.run_script ▸ hv', hr⟩

end Parse

end Stepwise
