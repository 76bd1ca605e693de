import Stepwise.Proofs.Phrases.Layout

/-! # Where expressions lie

Each routine that parses expressions or declarators gives nodes that lie in order among the tokens
that it takes.
-/

namespace Stepwise

theorem Expr.span_ofPath (span : Span) (parts : List String) :
    (Expr.ofPath span parts).span = span := by
  unfold Expr.ofPath
  split <;> rfl

theorem Expr.parts_ofPath (span : Span) (parts : List String) :
    (Expr.ofPath span parts).parts = [] := by
  unfold Expr.ofPath
  split <;> rfl

namespace Parse

open Tokens Script

namespace Keeps

variable {root : Call} {s₀ s : Tokens} {h' : s.Shorter s₀}

theorem expression (hknown : Known root s) : Keeps root (.expression s) := by
  refine .bind (.ask (c := .assignment s) trivial ?_)
  rintro ⟨first, t, _⟩ hfirst hlaid
  refine .ask ?_ fun v _ hv _ => hv
  exact ⟨⟨hknown, Call.reaches hfirst⟩, passes_expression hfirst, hlaid⟩

theorem disjunction (hknown : Known root s) : Keeps root (.disjunction s) := by
  refine .bind (.ask (c := .conjunction s) trivial ?_)
  rintro ⟨first, t, _⟩ hfirst hlaid
  refine .ask ?_ fun v _ hv _ => hv
  exact ⟨⟨hknown, Call.reaches hfirst⟩, passes_disjunction hfirst, hlaid⟩

theorem conjunction (hknown : Known root s) : Keeps root (.conjunction s) := by
  refine .bind (.ask (c := .binary 0 s) trivial ?_)
  rintro ⟨first, t, _⟩ hfirst hlaid
  refine .ask ?_ fun v _ hv _ => hv
  exact ⟨⟨hknown, Call.reaches hfirst⟩, passes_conjunction hfirst, hlaid⟩

theorem binary (least : Nat) (hknown : Known root s) : Keeps root (.binary least s) := by
  refine .bind (.ask (c := .unary s) trivial ?_)
  rintro ⟨first, t, _⟩ hfirst hlaid
  refine .ask ?_ fun v _ hv _ => hv
  exact ⟨⟨hknown, Call.reaches hfirst⟩, passes_binary least hfirst, hlaid⟩

theorem trailing (hknown : Known root s) (hfalls : Falls s) : Keeps root (.trailing s) := by
  refine .bind (.ask (c := .primary s) hfalls ?_)
  rintro ⟨first, t, _⟩ hfirst hlaid
  refine .ask ?_ fun v _ hv _ => hv
  exact ⟨⟨hknown, Call.reaches hfirst⟩, hfalls.passes hfirst, hlaid⟩

theorem commaTail {left : Expr} (h : Grows root Parse.expression Parse.commaTail s₀ left s) :
    Keeps root (.commaTail s₀ left s h') := by
  refine .bind (.offer (fun _ => .done fun _ => h.laid) fun _ t h₁ hcomma => ?_)
  refine .bind (.since (.ask (c := .assignment t) trivial ?_))
  rintro ⟨right, u, h₂⟩ hright (hlaid : Laid root t.rest.length _ _)
  have hpasses := h.passes.comma hcomma hright
  have hreaches := (leaves_accept? _ _ hcomma).trans (Call.reaches hright)
  refine .ask ?_ fun v _ hv _ => hv
  exact h.step hpasses (.of_commaTail hpasses) hreaches (h₂.trans (h₁.trans h')) rfl rfl
    (hlaid.mono_left (Nat.le_of_lt h₁))

theorem disjunctionTail {left : Expr}
    (h : Grows root Parse.disjunction Parse.disjunctionTail s₀ left s) :
    Keeps root (.disjunctionTail s₀ left s h') := by
  refine .bind (.offer (fun _ => .done fun _ => h.laid) fun _ t h₁ hor => ?_)
  refine .bind (.since (.ask (c := .conjunction t) trivial ?_))
  rintro ⟨right, u, h₂⟩ hright (hlaid : Laid root t.rest.length _ _)
  have hpasses := h.passes.disjunction hor hright
  have hreaches := (leaves_accept? _ _ hor).trans (Call.reaches hright)
  refine .ask ?_ fun v _ hv _ => hv
  exact h.step hpasses (.of_disjunctionTail hpasses) hreaches (h₂.trans (h₁.trans h')) rfl rfl
    (hlaid.mono_left (Nat.le_of_lt h₁))

theorem conjunctionTail {left : Expr}
    (h : Grows root Parse.conjunction Parse.conjunctionTail s₀ left s) :
    Keeps root (.conjunctionTail s₀ left s h') := by
  refine .bind (.offer (fun _ => .done fun _ => h.laid) fun _ t h₁ hand => ?_)
  refine .bind (.since (.ask (c := .binary 0 t) trivial ?_))
  rintro ⟨right, u, h₂⟩ hright (hlaid : Laid root t.rest.length _ _)
  have hpasses := h.passes.conjunction hand hright
  have hreaches := (leaves_accept? _ _ hand).trans (Call.reaches hright)
  refine .ask ?_ fun v _ hv _ => hv
  exact h.step hpasses (.of_conjunctionTail hpasses) hreaches (h₂.trans (h₁.trans h')) rfl rfl
    (hlaid.mono_left (Nat.le_of_lt h₁))

theorem binaryTail {least : Nat} {left : Expr}
    (h : Grows root (Parse.binary least) (Parse.binaryTail least) s₀ left s) :
    Keeps root (.binaryTail least s₀ left s h') := by
  refine .bind (.offer (fun _ => .done fun _ => h.laid) fun op t h₁ hop => ?_)
  refine .bind (.since (.ask (c := .binary (op.2 + 1) t) trivial ?_))
  rintro ⟨right, u, h₂⟩ hright (hlaid : Laid root t.rest.length _ _)
  have hpasses := h.passes.binary hop hright
  have hreaches := (leaves_binaryOperator? _ _ hop).trans (Call.reaches hright)
  refine .ask ?_ fun v _ hv _ => hv
  exact h.step hpasses (.of_binaryTail hpasses) hreaches (h₂.trans (h₁.trans h')) rfl rfl
    (hlaid.mono_left (Nat.le_of_lt h₁))

theorem assignment (hknown : Known root s) : Keeps root (.assignment s) := by
  refine .bind (.ask (c := .conditional s) trivial ?_)
  rintro ⟨target, t, h₁⟩ - (hlaid : Laid root s.rest.length _ _)
  refine .bind (.offer (fun _ => .done fun _ => hlaid) fun op u h₂ _ => ?_)
  refine .ite (fun hbrace => ?_) fun _ => ?_
  · refine .bind (.since (.ask_known (c := .braceList u) trivial ?_))
    rintro ⟨⟨items, _⟩, v, h₃⟩ hitems (hu : Known root u) ⟨hparts, (rfl : _ = u.spanTo v)⟩
    have hlist : Laid root u.rest.length [.expr (.list (u.spanTo v) items)] v.rest.length :=
      .expr hu (Call.reaches hitems) h₃ rfl (.of_braceList hbrace hitems) hparts
    exact .done fun hv => .answer hknown (.of_assignment hv) (Call.reaches hv) rfl
      (hlaid.append (hlist.mono_left (Nat.le_of_lt h₂)))
  · refine .bind (.since (.ask (c := .assignment u) trivial ?_))
    rintro ⟨value, v, h₃⟩ - (hvalue : Laid root u.rest.length _ _)
    exact .done fun hv => .answer hknown (.of_assignment hv) (Call.reaches hv) rfl
      (hlaid.append (hvalue.mono_left (Nat.le_of_lt h₂)))

theorem conditional (hknown : Known root s) : Keeps root (.conditional s) := by
  refine .bind (.ask (c := .disjunction s) trivial ?_)
  rintro ⟨c, t, h₁⟩ - (hc : Laid root s.rest.length _ _)
  refine .bind (.offer (fun _ => .done fun _ => hc) fun _ u h₂ _ => ?_)
  refine .bind (.since (.ask (c := .expression u) trivial ?_))
  rintro ⟨e, v, h₃⟩ - (he : Laid root u.rest.length _ _)
  refine .bind (.since (.demand fun _ w h₄ _ => ?_))
  refine .bind (.since (.ask (c := .assignment w) trivial ?_))
  rintro ⟨d, x, h₅⟩ - (hd : Laid root w.rest.length _ _)
  exact .done fun hv => .answer hknown (.of_conditional hv) (Call.reaches hv) rfl
    (hc.append ((he.append (hd.mono_left (Nat.le_of_lt h₄))).mono_left (Nat.le_of_lt h₂)))

theorem unary (hknown : Known root s) : Keeps root (.unary s) := by
  refine .bind (.offer (fun hop => ?_) fun op t h₁ _ => ?_)
  · refine .bind (.offer (fun hcast => ?_) fun _ t h₁ _ => ?_)
    · refine .bind (.offer (fun hsizeof => ?_) fun _ t h₁ _ => ?_)
      · exact .ask (c := .trailing s) (falls_of_none hop hcast hsizeof) fun v _ hv _ => hv
      · refine .bind (.offer (fun _ => ?_) fun _ u h₂ _ => ?_)
        · refine .bind (.since (.ask (c := .unary t) trivial ?_))
          rintro ⟨e, u, h₂⟩ - (he : Laid root t.rest.length _ _)
          exact .done fun hv => .answer hknown (.of_unary hv) (Call.reaches hv) rfl
            (he.mono_left (Nat.le_of_lt h₁))
        · refine .bind (.since (.ask (c := .typeName u) trivial ?_))
          rintro ⟨⟨spec, target⟩, v, h₃⟩ - (htarget : Laid root u.rest.length _ _)
          refine .bind (.since (.demand fun _ w h₄ _ => ?_))
          exact .done fun hv => .answer hknown (.of_unary hv) (Call.reaches hv) rfl
            ((htarget.mono_left (Nat.le_of_lt (h₂.trans h₁))).mono_right (Nat.le_of_lt h₄))
    · refine .bind (.since (.ask (c := .typeName t) trivial ?_))
      rintro ⟨⟨spec, target⟩, u, h₂⟩ - (htarget : Laid root t.rest.length _ _)
      refine .bind (.since (.demand fun _ v h₃ _ => ?_))
      refine .bind (.since (.ask (c := .unary v) trivial ?_))
      rintro ⟨e, w, h₄⟩ - (he : Laid root v.rest.length _ _)
      exact .done fun hv => .answer hknown (.of_unary hv) (Call.reaches hv) rfl
        ((htarget.mono_left (Nat.le_of_lt h₁)).append (he.mono_left (Nat.le_of_lt h₃)))
  · refine .bind (.since (.ask (c := .unary t) trivial ?_))
    rintro ⟨e, u, h₂⟩ - (he : Laid root t.rest.length _ _)
    exact .done fun hv => .answer hknown (.of_unary hv) (Call.reaches hv) rfl
      (he.mono_left (Nat.le_of_lt h₁))

theorem trailingTail {e : Expr} (h : Grows root Parse.unary Parse.trailingTail s₀ e s) :
    Keeps root (.trailingTail s₀ e s h') := by
  refine .bind (.offer (fun hbracket => ?_) fun _ t h₁ hbracket => ?_)
  · refine .bind (.offer (fun hparen => ?_) fun _ t h₁ hparen => ?_)
    · refine .bind (.offer (fun hmember => ?_) fun throughPointer t h₁ hmember => ?_)
      · refine .bind (.offer (fun _ => .done fun _ => h.laid) fun op t h₁ hop => ?_)
        have hpasses := h.passes.behind hbracket hparen hmember hop
        refine .ask ?_ fun v _ hv _ => hv
        exact h.step hpasses (.of_trailingTail hpasses) (leaves_take? _ _ hop) (h₁.trans h') rfl
          rfl (.empty h₁)
      · refine .bind (.since (.demand fun name u h₂ hname => ?_))
        have hpasses := h.passes.member hbracket hparen hmember hname
        have hreaches := (leaves_take? _ _ hmember).trans
          (reaches_of_ok leaves_expectIdentifier hname)
        refine .ask ?_ fun v _ hv _ => hv
        exact h.step hpasses (.of_trailingTail hpasses) hreaches (h₂.trans (h₁.trans h')) rfl rfl
          (.empty (h₂.trans h₁))
    · refine .bind (.ask (c := .argumentsTail s [] t h₁) (.empty h₁) ?_)
      rintro ⟨args, u, h₂⟩ hargs (hlaid : Laid root s.rest.length _ _)
      have hpasses := h.passes.call hbracket hparen hargs
      have hreaches := (leaves_accept? _ _ hparen).trans (Call.reaches hargs)
      refine .ask ?_ fun v _ hv _ => hv
      exact h.step hpasses (.of_trailingTail hpasses) hreaches (h₂.trans h') rfl rfl hlaid
  · refine .bind (.since (.ask (c := .expression t) trivial ?_))
    rintro ⟨index, u, h₂⟩ hindex (hlaid : Laid root t.rest.length _ _)
    refine .bind (.since (.demand fun _ v h₃ hclose => ?_))
    have hpasses := h.passes.index hbracket hindex hclose
    have hreaches := ((leaves_accept? _ _ hbracket).trans (Call.reaches hindex)).trans
      (reaches_of_ok (leaves_expect _ _) hclose)
    refine .ask ?_ fun v _ hv _ => hv
    exact h.step hpasses (.of_trailingTail hpasses) hreaches (h₃.trans (h₂.trans (h₁.trans h')))
      rfl rfl ((hlaid.mono_left (Nat.le_of_lt h₁)).mono_right (Nat.le_of_lt h₃))

theorem argumentsTail {args : List Expr}
    (h : Laid root s₀.rest.length (args.reverse.map .expr) s.rest.length) :
    Keeps root (.argumentsTail s₀ args s h') := by
  refine .ite (fun _ => ?_) fun _ => ?_
  · exact .bind (.demand fun _ t h₁ _ => .done fun _ => h.mono_right (Nat.le_of_lt h₁))
  · refine .bind (.ask (c := .assignment s) trivial ?_)
    rintro ⟨arg, t, h₁⟩ - (harg : Laid root s.rest.length _ _)
    have hmore : Laid root s₀.rest.length ((arg :: args).reverse.map .expr) t.rest.length := by
      rw [List.reverse_cons, List.map_append]
      exact h.append harg
    refine .bind (.offer (fun _ => ?_) fun _ u h₂ _ => ?_)
    · refine .bind (.since (.demand fun _ u h₂ _ => ?_))
      exact .done fun _ => hmore.mono_right (Nat.le_of_lt h₂)
    · exact .ask (c := .argumentsTail s₀ (arg :: args) u _) (hmore.mono_right (Nat.le_of_lt h₂))
        fun v _ hv _ => hv

theorem primary (hknown : Known root s) (hfalls : Falls s) : Keeps root (.primary s) := by
  refine .bind (.offer (fun _ => ?_) fun value t h₁ _ => ?_)
  · refine .bind (.offer (fun _ => ?_) fun text t h₁ _ => ?_)
    · refine .ite (fun _ => ?_) fun _ => ?_
      · refine .bind (.ask (c := .path s) trivial ?_)
        rintro ⟨parts, t, h₁⟩ - -
        exact .done fun hv => .answer hknown (.of_primary hfalls hv) (Call.reaches hv)
          (Expr.span_ofPath _ parts) (Expr.parts_ofPath _ parts ▸ .empty h₁)
      · refine .bind (.offer (fun _ => ?_) fun _ t h₁ _ => ?_)
        · refine .bind (.offer (fun _ => ?_) fun _ t h₁ _ => ?_)
          · refine .ite (fun _ => ?_) fun _ => ?_
            · refine .bind (.ask (c := .braceList s) trivial ?_)
              rintro ⟨⟨items, _⟩, t, h₁⟩ - ⟨hparts, (rfl : _ = s.spanTo t)⟩
              exact .done fun hv => .answer hknown (.of_primary hfalls hv) (Call.reaches hv) rfl
                hparts
            · refine .bind (.offer (fun _ => .fail) fun _ t h₁ _ => ?_)
              refine .bind (.since (.demand fun _ u h₂ _ => ?_))
              refine .bind (.since (.ask (c := .typeName u) trivial ?_))
              rintro ⟨⟨spec, target⟩, v, h₃⟩ - (htarget : Laid root u.rest.length _ _)
              refine .bind (.since (.demand fun _ w h₄ _ => ?_))
              refine .bind (.since (.demand fun _ x h₅ _ => ?_))
              refine .bind (.since (.ask (c := .expression x) trivial ?_))
              rintro ⟨e, y, h₆⟩ - (he : Laid root x.rest.length _ _)
              refine .bind (.since (.demand fun _ z h₇ _ => ?_))
              exact .done fun hv => .answer hknown (.of_primary hfalls hv) (Call.reaches hv) rfl
                ((htarget.mono_left (Nat.le_of_lt (h₂.trans h₁))).append
                  ((he.mono_left (Nat.le_of_lt (h₅.trans h₄))).mono_right (Nat.le_of_lt h₇)))
          · refine .bind (.since (.ask (c := .expression t) trivial ?_))
            rintro ⟨e, u, h₂⟩ - (he : Laid root t.rest.length _ _)
            refine .bind (.since (.demand fun _ v h₃ _ => ?_))
            exact .done fun _ => (he.mono_left (Nat.le_of_lt h₁)).mono_right (Nat.le_of_lt h₃)
        · refine .bind (.since (.ask (c := .path t) trivial ?_))
          rintro ⟨parts, u, h₂⟩ - -
          exact .done fun hv => .answer hknown (.of_primary hfalls hv) (Call.reaches hv) rfl
            (.empty (h₂.trans h₁))
    · refine .bind (.ask (c := .stringTail s text.2 text.1 t h₁) trivial ?_)
      rintro ⟨value, u, h₂⟩ - -
      exact .done fun hv => .answer hknown (.of_primary hfalls hv) (Call.reaches hv) rfl (.empty h₂)
  · exact .done fun hv => .answer hknown (.of_primary hfalls hv) (Call.reaches hv) rfl (.empty h₁)

theorem initializer : Keeps root (.initializer s) := by
  refine .ite (fun _ => ?_) fun _ => ?_
  · refine .bind (.ask (c := .braceList s) trivial ?_)
    rintro ⟨⟨items, span⟩, t, h₁⟩ - ⟨hparts, -⟩
    refine .done fun _ => ?_
    change Laid root s.rest.length (Initializer.list span items).parts t.rest.length
    rwa [Initializer.parts_list]
  · refine .bind (.ask (c := .assignment s) trivial ?_)
    rintro ⟨e, t, h₁⟩ - he
    exact .done fun _ => he

theorem braceList : Keeps root (.braceList s) := by
  refine .bind (.demand fun _ t h₁ _ => ?_)
  exact .ask (c := .braceTail s [] t h₁) (.empty h₁) fun v _ hv _ => hv

theorem braceTail {items : List Initializer}
    (h : Laid root s₀.rest.length (items.reverse.flatMap Initializer.parts) s.rest.length) :
    Keeps root (.braceTail s₀ items s h') := by
  refine .ite (fun _ => ?_) fun _ => ?_
  · exact .bind (.demand fun _ t h₁ _ => .done fun _ => ⟨h.mono_right (Nat.le_of_lt h₁), rfl⟩)
  · refine .bind (.ask (c := .initializer s) trivial ?_)
    rintro ⟨item, t, h₁⟩ - (hitem : Laid root s.rest.length _ _)
    have hmore : Laid root s₀.rest.length ((item :: items).reverse.flatMap Initializer.parts)
        t.rest.length := by
      rw [List.reverse_cons, List.flatMap_append, List.flatMap_singleton]
      exact h.append hitem
    refine .bind (.offer (fun _ => ?_) fun _ u h₂ _ => ?_)
    · refine .bind (.since (.demand fun _ u h₂ _ => ?_))
      exact .done fun _ => ⟨hmore.mono_right (Nat.le_of_lt h₂), rfl⟩
    · exact .ask (c := .braceTail s₀ (item :: items) u _) (hmore.mono_right (Nat.le_of_lt h₂))
        fun v _ hv _ => hv

theorem typeName : Keeps root (.typeName s) := by
  refine .bind (.ask (c := .typeSpec s) trivial ?_)
  rintro ⟨spec, t, h₁⟩ - -
  refine .bind (.ask (c := .declarator true s t h₁) trivial ?_)
  rintro ⟨target, u, h₂⟩ - (htarget : Laid root t.rest.length _ _)
  exact .done fun _ => htarget.mono_left (Nat.le_of_lt h₁)

theorem declarator (allowAbstract : Bool) : Keeps root (.declarator allowAbstract s₀ s h') := by
  refine .bind (.ask (c := .pointers [] s) trivial ?_)
  rintro ⟨marks, t, h₁⟩ - -
  dsimp only
  generalize t.skip .amp = skipped
  obtain ⟨reference, u, h₂⟩ := skipped
  refine .bind (.takeTo (.bind (.offer (fun _ => ?_) fun name v h₃ _ => ?_)))
  · refine .bind (.offer (fun _ => ?_) fun _ v h₃ _ => ?_)
    · cases allowAbstract with
      | true =>
        exact .ask (c := .suffixesTail s₀ s marks reference .anonymous [] u _)
          (.nil (h₂.trans h₁)) fun v _ hv _ => hv
      | false => exact .fail
    · refine .bind (.ask (c := .declarator allowAbstract u v h₃) trivial ?_)
      rintro ⟨inner, w, h₄⟩ - (hinner : Laid root v.rest.length _ _)
      refine .bind (.since (.demand fun _ x h₅ _ => ?_))
      have hle : v.rest.length ≤ s.rest.length := (Nat.le_of_lt h₃).trans (h₂.trans h₁)
      refine .ask (c := .suffixesTail s₀ s marks reference (.nested inner) [] x _) ?_
        fun v _ hv _ => hv
      change Laid root s.rest.length (inner.parts ++ []) x.rest.length
      rw [List.append_nil]
      exact (hinner.mono_left hle).mono_right (Nat.le_of_lt h₅)
  · exact .ask (c := .suffixesTail s₀ s marks reference (.named name) [] v _)
      (.nil ((Nat.le_of_lt h₃).trans (h₂.trans h₁))) fun v _ hv _ => hv

theorem suffixesTail {start : Tokens} {marks : List Bool} {reference : Bool}
    {base : DeclaratorBase} {suffixes : List DeclaratorSuffix}
    (h : Laid root start.rest.length
      (base.parts ++ suffixes.reverse.flatMap DeclaratorSuffix.parts) s.rest.length) :
    Keeps root (.suffixesTail s₀ start marks reference base suffixes s h') := by
  have hmore (suffix : DeclaratorSuffix) {t : Tokens}
      (hparts : Laid root s.rest.length suffix.parts t.rest.length) :
      Laid root start.rest.length
        (base.parts ++ (suffix :: suffixes).reverse.flatMap DeclaratorSuffix.parts)
        t.rest.length := by
    rw [List.reverse_cons, List.flatMap_append, List.flatMap_singleton, ← List.append_assoc]
    exact h.append hparts
  refine .bind (.offer (fun _ => ?_) fun _ t h₁ _ => ?_)
  · refine .bind (.offer (fun _ => ?_) fun _ t h₁ _ => ?_)
    · refine .done fun _ => ?_
      change Laid root start.rest.length (Declarator.mk _ marks reference base _).parts _
      rwa [Declarator.parts_mk]
    · refine .bind (.takeTo (.bind (.ask (c := .paramsTail s [] t.skipVoid.1 _)
        (.empty (h₁.le_trans t.skipVoid.2)) ?_)))
      rintro ⟨⟨params, variadic⟩, u, h₂⟩ - (hparams : Laid root s.rest.length _ _)
      refine .ask (c := .suffixesTail s₀ start marks reference base
        (.params params variadic :: suffixes) u _) (hmore _ ?_) fun v _ hv _ => hv
      rwa [DeclaratorSuffix.parts_params]
  · refine .bind (.offer (fun _ => ?_) fun _ u h₂ _ => ?_)
    · refine .bind (.since (.ask (c := .expression t) trivial ?_))
      rintro ⟨size, u, h₂⟩ - (hsize : Laid root t.rest.length _ _)
      refine .bind (.since (.demand fun _ v h₃ _ => ?_))
      exact .ask (c := .suffixesTail s₀ start marks reference base (.array (some size) :: suffixes)
        v _) (hmore _ ((hsize.mono_left (Nat.le_of_lt h₁)).mono_right (Nat.le_of_lt h₃)))
        fun v _ hv _ => hv
    · exact .ask (c := .suffixesTail s₀ start marks reference base (.array none :: suffixes) u _)
        (hmore _ (.empty (h₂.trans h₁))) fun v _ hv _ => hv

theorem paramsTail {params : List Param}
    (h : Laid root s₀.rest.length (params.reverse.flatMap Param.parts) s.rest.length) :
    Keeps root (.paramsTail s₀ params s h') := by
  refine .ite (fun _ => ?_) fun _ => ?_
  · exact .bind (.demand fun _ t h₁ _ => .done fun _ => h.mono_right (Nat.le_of_lt h₁))
  · refine .bind (.offer (fun _ => ?_) fun _ t h₁ _ => ?_)
    · refine .bind (.ask (c := .typeSpec s) trivial ?_)
      rintro ⟨spec, t, h₁⟩ - -
      refine .bind (.ask (c := .declarator true s t h₁) trivial ?_)
      rintro ⟨d, u, h₂⟩ - (hd : Laid root t.rest.length _ _)
      refine .bind (.ask (c := .defaultArgument s u h₂) trivial ?_)
      rintro ⟨value, v, h₃⟩ - (hvalue : Laid root u.rest.length _ _)
      have hmore : Laid root s₀.rest.length
          ((Param.mk (s.spanTo v) spec d value :: params).reverse.flatMap Param.parts)
          v.rest.length := by
        rw [List.reverse_cons, List.flatMap_append, List.flatMap_singleton]
        exact h.append ((hd.append hvalue).mono_left (Nat.le_of_lt h₁))
      refine .bind (.offer (fun _ => ?_) fun _ w h₄ _ => ?_)
      · refine .bind (.since (.demand fun _ w h₄ _ => ?_))
        exact .done fun _ => hmore.mono_right (Nat.le_of_lt h₄)
      · exact .ask (c := .paramsTail s₀ (.mk (s.spanTo v) spec d value :: params) w _)
          (hmore.mono_right (Nat.le_of_lt h₄)) fun v _ hv _ => hv
    · refine .bind (.since (.demand fun _ u h₂ _ => ?_))
      exact .done fun _ => h.mono_right (Nat.le_of_lt (h₂.trans h₁))

theorem defaultArgument : Keeps root (.defaultArgument s₀ s h') := by
  refine .bind (.offer (fun _ => .done fun _ => .nil (Nat.le_refl _)) fun _ t h₁ _ => ?_)
  refine .bind (.since (.ask (c := .assignment t) trivial ?_))
  rintro ⟨value, u, h₂⟩ - (hvalue : Laid root t.rest.length _ _)
  exact .done fun _ => hvalue.mono_left (Nat.le_of_lt h₁)

end Keeps

end Parse

end Stepwise
