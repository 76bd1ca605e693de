import Stepwise.Proofs.Phrases.Operands

/-! # Where statements lie

Each routine that parses declarations or statements gives nodes that lie in order among the tokens
that it takes; members and methods of a struct lie in the order in which they are read.
-/

namespace Stepwise

namespace Subtree

variable {span : Span} {name : String} {members : List MemberDecl} {methods : List FunctionDef}
  {parts : List Subtree}

theorem arranges_struct : (stmt (.struct span name members methods)).Arranges parts ↔
    parts.Perm (members.flatMap MemberDecl.parts ++ methods.flatMap FunctionDef.parts) ∧
      (members.flatMap MemberDecl.parts).Sublist parts ∧
      (methods.flatMap FunctionDef.parts).Sublist parts := by
  refine ⟨fun h => ⟨?_, h.sublist _ (.head _), h.sublist _ (.tail _ (.head _))⟩, fun h => ⟨?_, ?_⟩⟩
  · simpa [groups, Stmt.groups] using h.perm
  · simpa [groups, Stmt.groups] using h.1
  · simpa [groups, Stmt.groups] using h.2

/-- The members that come next are the last ones. -/
theorem Arranges.append_members (h : (stmt (.struct span name members methods)).Arranges parts)
    (more : List MemberDecl) :
    (stmt (.struct span name (members ++ more) methods)).Arranges
      (parts ++ more.flatMap MemberDecl.parts) := by
  obtain ⟨hperm, hmembers, hmethods⟩ := arranges_struct.mp h
  rw [arranges_struct, List.flatMap_append]
  refine ⟨?_, hmembers.append_right _, hmethods.trans (List.sublist_append_left _ _)⟩
  refine (hperm.append_right _).trans ?_
  rw [List.append_assoc, List.append_assoc]
  exact List.perm_append_comm.append_left _

/-- The method that comes next is the last one. -/
theorem Arranges.append_method (h : (stmt (.struct span name members methods)).Arranges parts)
    (f : FunctionDef) :
    (stmt (.struct span name members (methods ++ [f]))).Arranges (parts ++ f.parts) := by
  obtain ⟨hperm, hmembers, hmethods⟩ := arranges_struct.mp h
  rw [arranges_struct, List.flatMap_append, List.flatMap_singleton, ← List.append_assoc]
  exact ⟨hperm.append_right _, hmembers.trans (List.sublist_append_left _ _),
    hmethods.append_right _⟩

end Subtree

namespace Parse

open Tokens Script

namespace Keeps

variable {root : Call} {s₀ s : Tokens} {h' : s.Shorter s₀}

theorem initDeclarators {earlier : List InitDeclarator} {d : Declarator}
    (h : Laid root s₀.rest.length (earlier.reverse.flatMap InitDeclarator.parts ++ d.parts)
      s.rest.length) : Keeps root (.initDeclarators s₀ earlier d s h') := by
  have hmore (init : Option Initializer) {t : Tokens}
      (hparts : Laid root s.rest.length (init.toList.flatMap Initializer.parts) t.rest.length) :
      Laid root s₀.rest.length ((⟨d, init⟩ :: earlier).reverse.flatMap InitDeclarator.parts)
        t.rest.length := by
    rw [List.reverse_cons, List.flatMap_append, List.flatMap_singleton, InitDeclarator.parts,
      ← List.append_assoc]
    exact h.append hparts
  refine .bind (.offer (fun _ => ?_) fun _ t h₁ _ => ?_)
  · exact .ask (c := .moreDeclarators s₀ (⟨d, none⟩ :: earlier) s h')
      (hmore none (.nil (Nat.le_refl _))) fun v _ hv _ => hv
  · refine .bind (.since (.ask (c := .initializer t) trivial ?_))
    rintro ⟨value, u, h₂⟩ - (hvalue : Laid root t.rest.length _ _)
    refine .ask (c := .moreDeclarators s₀ (⟨d, some value⟩ :: earlier) u _) (hmore _ ?_)
      fun v _ hv _ => hv
    exact (List.flatMap_singleton Initializer.parts value).symm ▸
      hvalue.mono_left (Nat.le_of_lt h₁)

theorem moreDeclarators {earlier : List InitDeclarator}
    (h : Laid root s₀.rest.length (earlier.reverse.flatMap InitDeclarator.parts) s.rest.length) :
    Keeps root (.moreDeclarators s₀ earlier s h') := by
  refine .bind (.offer (fun _ => .done fun _ => h) fun _ t h₁ _ => ?_)
  refine .bind (.ask (c := .declarator false s t h₁) trivial ?_)
  rintro ⟨d, u, h₂⟩ - (hd : Laid root t.rest.length _ _)
  exact .ask (c := .initDeclarators s₀ earlier d u _)
    (h.append (hd.mono_left (Nat.le_of_lt h₁))) fun v _ hv _ => hv

theorem typedefTail (h : Begins root s₀ s) : Keeps root (.typedefTail s₀ s h') := by
  refine .bind (.ask (c := .typeSpec s) trivial ?_)
  rintro ⟨spec, t, h₁⟩ - -
  refine .bind (.ask (c := .declarator false s t h₁) trivial ?_)
  rintro ⟨d, u, h₂⟩ - (hd : Laid root t.rest.length _ _)
  refine .bind (.ask (c := .initDeclarators s [] d u h₂) (hd.mono_left (Nat.le_of_lt h₁)) ?_)
  rintro ⟨ds, v, h₃⟩ - (hds : Laid root s.rest.length _ _)
  refine .bind (.since (.demand fun _ w h₄ _ => ?_))
  exact .done fun hv => .stmt h.known (h.reaches.trans (Call.reaches hv))
    (h₄.trans (h₃.trans h')) rfl rfl
    ((hds.mono_left (Nat.le_of_lt h')).mono_right (Nat.le_of_lt h₄))

theorem usingTail (h : Begins root s₀ s) : Keeps root (.usingTail s₀ s h') := by
  refine .bind (.offer (fun _ => ?_) fun _ t h₁ _ => ?_)
  · refine .bind (.ask (c := .path s) trivial ?_)
    rintro ⟨target, t, h₁⟩ - -
    refine .bind (.since (.demand fun _ u h₂ _ => ?_))
    exact .done fun hv => .stmt h.known (h.reaches.trans (Call.reaches hv))
      (h₂.trans (h₁.trans h')) rfl rfl (.empty (h₂.trans (h₁.trans h')))
  · refine .bind (.since (.ask (c := .path t) trivial ?_))
    rintro ⟨target, u, h₂⟩ - -
    refine .bind (.since (.demand fun _ v h₃ _ => ?_))
    exact .done fun hv => .stmt h.known (h.reaches.trans (Call.reaches hv))
      (h₃.trans (h₂.trans (h₁.trans h'))) rfl rfl (.empty (h₃.trans (h₂.trans (h₁.trans h'))))

theorem optionalBefore (x : Symbol) (role : String) : Keeps root (.optionalBefore x role s) := by
  refine .bind (.offer (fun _ => ?_) fun _ t h₁ _ => .done fun _ => .empty h₁)
  refine .bind (.ask (c := .expression s) trivial ?_)
  rintro ⟨value, t, h₁⟩ - (hvalue : Laid root s.rest.length _ _)
  refine .bind (.since (.demand fun _ u h₂ _ => ?_))
  exact .done fun _ => hvalue.mono_right (Nat.le_of_lt h₂)

theorem compound (hknown : Known root s) : Keeps root (.compound s) := by
  refine .bind (.demand fun _ t h₁ _ => ?_)
  refine .bind (.ask (c := .blockTail s [] t h₁) (.empty h₁) ?_)
  rintro ⟨body, u, h₂⟩ - (hbody : Laid root s.rest.length _ _)
  exact .done fun hv => .stmt hknown (Call.reaches hv) h₂ rfl rfl hbody

theorem blockTail {body : List Stmt}
    (h : Laid root s₀.rest.length (body.reverse.map .stmt) s.rest.length) :
    Keeps root (.blockTail s₀ body s h') := by
  refine .ite (fun _ => ?_) fun _ => ?_
  · exact .bind (.demand fun _ t h₁ _ => .done fun _ => h.mono_right (Nat.le_of_lt h₁))
  · refine .bind (.ask (c := .statement s) trivial ?_)
    rintro ⟨item, t, h₁⟩ - (hitem : Laid root s.rest.length _ _)
    refine .ask (c := .blockTail s₀ (item :: body) t _) ?_ fun v _ hv _ => hv
    change Laid root s₀.rest.length ((item :: body).reverse.map .stmt) t.rest.length
    rw [List.reverse_cons, List.map_append]
    exact h.append hitem

theorem forClauses {init : Option Stmt} (h : Begins root s₀ s)
    (hinit : Laid root s₀.rest.length (init.toList.map .stmt) s.rest.length) :
    Keeps root (.forClauses s₀ init s h') := by
  refine .bind (.ask (c := .optionalBefore .semicolon "after for condition" s) trivial ?_)
  rintro ⟨condition, t, h₁⟩ - (hcondition : Laid root s.rest.length _ _)
  refine .bind (.since (.ask (c := .optionalBefore .rightParen "after for clauses" t) trivial ?_))
  rintro ⟨step, u, h₂⟩ - (hstep : Laid root t.rest.length _ _)
  refine .bind (.since (.ask (c := .statement u) trivial ?_))
  rintro ⟨body, v, h₃⟩ - (hbody : Laid root u.rest.length _ _)
  exact .done fun hv => .stmt h.known (h.reaches.trans (Call.reaches hv))
    (h₃.trans (h₂.trans (h₁.trans h'))) rfl rfl
    (hinit.append (hcondition.append (hstep.append hbody)))

theorem forHead (h : Begins root s₀ s) (hknown : Known root s) :
    Keeps root (.forHead s₀ s h') := by
  refine .bind (.offer (fun _ => ?_) fun _ t h₁ hsemicolon => ?_)
  · refine .ite (fun _ => ?_) fun _ => ?_
    · refine .bind (.ask (c := .typeSpec s) trivial ?_)
      rintro ⟨spec, t, h₁⟩ hspec -
      refine .bind (.ask (c := .declarator false s t h₁) trivial ?_)
      rintro ⟨d, u, h₂⟩ hd (hlaid : Laid root t.rest.length _ _)
      have hlaid : Laid root s.rest.length d.parts u.rest.length :=
        hlaid.mono_left (Nat.le_of_lt h₁)
      refine .bind (.offer (fun _ => ?_) fun _ v h₃ _ => ?_)
      · refine .bind (.ask (c := .initDeclarators s [] d u h₂) hlaid ?_)
        rintro ⟨ds, v, h₃⟩ hds (hlaid' : Laid root s.rest.length _ _)
        refine .bind (.since (.demand fun _ w h₄ hclose => ?_))
        have hreaches : s.Reaches w :=
          (Call.reaches hspec).trans <| (Call.reaches hd).trans <| (Call.reaches hds).trans <|
            reaches_of_ok (leaves_expect _ _) hclose
        have hinit : Laid root s.rest.length
            [.stmt (.declaration (s.spanTo w) ⟨spec, ds⟩)] w.rest.length :=
          .stmt hknown hreaches (h₄.trans h₃) rfl rfl (hlaid'.mono_right (Nat.le_of_lt h₄))
        refine .ask ?_ fun v _ hv _ => hv
        exact ⟨⟨h.known, h.reaches.trans hreaches⟩, hinit.mono_left (Nat.le_of_lt h')⟩
      · refine .bind (.since (.ask (c := .expression v) trivial ?_))
        rintro ⟨range, w, h₄⟩ - (hrange : Laid root v.rest.length _ _)
        refine .bind (.since (.demand fun _ x h₅ _ => ?_))
        refine .bind (.since (.ask (c := .statement x) trivial ?_))
        rintro ⟨body, y, h₆⟩ - (hbody : Laid root x.rest.length _ _)
        have hparts := hrange.append (hbody.mono_left (Nat.le_of_lt h₅))
        exact .done fun hv => .stmt h.known (h.reaches.trans (Call.reaches hv))
          (h₆.trans <| h₅.trans <| h₄.trans <| h₃.trans <| h₂.trans h') rfl rfl
          ((hlaid.append (hparts.mono_left (Nat.le_of_lt h₃))).mono_left (Nat.le_of_lt h'))
    · refine .bind (.ask (c := .expression s) trivial ?_)
      rintro ⟨value, t, h₁⟩ hvalue (hlaid : Laid root s.rest.length _ _)
      refine .bind (.since (.demand fun _ u h₂ hclose => ?_))
      have hreaches : s.Reaches u :=
        (Call.reaches hvalue).trans (reaches_of_ok (leaves_expect _ _) hclose)
      have hinit : Laid root s.rest.length [.stmt (.expression (s.spanTo u) (some value))]
          u.rest.length :=
        .stmt hknown hreaches (h₂.trans h₁) rfl rfl (hlaid.mono_right (Nat.le_of_lt h₂))
      refine .ask ?_ fun v _ hv _ => hv
      exact ⟨⟨h.known, h.reaches.trans hreaches⟩, hinit.mono_left (Nat.le_of_lt h')⟩
  · refine .ask ?_ fun v _ hv _ => hv
    exact ⟨⟨h.known, h.reaches.trans (leaves_accept? _ _ hsemicolon)⟩, .empty (h₁.trans h')⟩

theorem statement (hknown : Known root s) : Keeps root (.statement s) := by
  refine .ite (fun _ => ?_) fun _ => .ite (fun _ => ?_) fun _ => ?_
  · exact .ask (c := .compound s) trivial fun v _ hv _ => hv
  · exact .ask (c := .external s) trivial fun v _ hv _ => hv
  refine .bind (.offer (fun _ => ?_) fun word t h₁ hword => ?_)
  · refine .bind (.offer (fun _ => ?_) fun name t h₁ _ => ?_)
    · refine .ite (fun _ => ?_) fun _ => ?_
      · exact .ask (c := .external s) trivial fun v _ hv _ => hv
      · refine .bind (.offer (fun _ => ?_) fun _ t h₁ _ => ?_)
        · refine .bind (.ask (c := .expression s) trivial ?_)
          rintro ⟨value, t, h₁⟩ - (hvalue : Laid root s.rest.length _ _)
          refine .bind (.since (.demand fun _ u h₂ _ => ?_))
          exact .done fun hv => .stmt hknown (Call.reaches hv) (h₂.trans h₁) rfl rfl
            (hvalue.mono_right (Nat.le_of_lt h₂))
        · exact .done fun hv => .stmt hknown (Call.reaches hv) h₁ rfl rfl (.empty h₁)
    · exact .done fun hv => .stmt hknown (Call.reaches hv) h₁ rfl rfl (.empty h₁)
  · cases word with
    | returnWord =>
      refine .bind (.since (.ask (c := .optionalBefore .semicolon "after return" t) trivial ?_))
      rintro ⟨value, u, h₂⟩ - (hvalue : Laid root t.rest.length _ _)
      exact .done fun hv => .stmt hknown (Call.reaches hv) (h₂.trans h₁) rfl rfl
        (hvalue.mono_left (Nat.le_of_lt h₁))
    | ifWord =>
      refine .bind (.since (.demand fun _ u h₂ _ => ?_))
      refine .bind (.since (.ask (c := .expression u) trivial ?_))
      rintro ⟨condition, v, h₃⟩ - (hcondition : Laid root u.rest.length _ _)
      refine .bind (.since (.demand fun _ w h₄ _ => ?_))
      refine .bind (.since (.ask (c := .statement w) trivial ?_))
      rintro ⟨thenBranch, x, h₅⟩ - (hthen : Laid root w.rest.length _ _)
      have hparts := (hcondition.append (hthen.mono_left (Nat.le_of_lt h₄))).mono_left
        (Nat.le_of_lt (h₂.trans h₁))
      have hx : x.Shorter s := h₅.trans <| h₄.trans <| h₃.trans <| h₂.trans h₁
      refine .bind (.offer (fun _ => ?_) fun _ y h₆ _ => ?_)
      · exact .done fun hv => .stmt hknown (Call.reaches hv) hx rfl rfl hparts
      · refine .bind (.since (.ask (c := .statement y) trivial ?_))
        rintro ⟨elseBranch, z, h₇⟩ - (helse : Laid root y.rest.length _ _)
        exact .done fun hv => .stmt hknown (Call.reaches hv) (h₇.trans (h₆.trans hx)) rfl rfl
          (hparts.append (helse.mono_left (Nat.le_of_lt h₆)))
    | whileWord =>
      refine .bind (.since (.demand fun _ u h₂ _ => ?_))
      refine .bind (.since (.ask (c := .expression u) trivial ?_))
      rintro ⟨condition, v, h₃⟩ - (hcondition : Laid root u.rest.length _ _)
      refine .bind (.since (.demand fun _ w h₄ _ => ?_))
      refine .bind (.since (.ask (c := .statement w) trivial ?_))
      rintro ⟨body, x, h₅⟩ - (hbody : Laid root w.rest.length _ _)
      exact .done fun hv => .stmt hknown (Call.reaches hv)
        (h₅.trans <| h₄.trans <| h₃.trans <| h₂.trans h₁) rfl rfl
        ((hcondition.append (hbody.mono_left (Nat.le_of_lt h₄))).mono_left
          (Nat.le_of_lt (h₂.trans h₁)))
    | doWord =>
      refine .bind (.since (.ask (c := .statement t) trivial ?_))
      rintro ⟨body, u, h₂⟩ - (hbody : Laid root t.rest.length _ _)
      refine .bind (.since (.demand fun _ v h₃ _ => ?_))
      refine .bind (.since (.demand fun _ w h₄ _ => ?_))
      refine .bind (.since (.ask (c := .expression w) trivial ?_))
      rintro ⟨condition, x, h₅⟩ - (hcondition : Laid root w.rest.length _ _)
      refine .bind (.since (.demand fun _ y h₆ _ => ?_))
      refine .bind (.since (.demand fun _ z h₇ _ => ?_))
      have hparts := hbody.append (hcondition.mono_left (Nat.le_of_lt (h₄.trans h₃)))
      exact .done fun hv => .stmt hknown (Call.reaches hv)
        (h₇.trans <| h₆.trans <| h₅.trans <| h₄.trans <| h₃.trans <| h₂.trans h₁) rfl rfl
        ((hparts.mono_left (Nat.le_of_lt h₁)).mono_right (Nat.le_of_lt (h₇.trans h₆)))
    | forWord =>
      refine .bind (.since (.demand fun _ u h₂ hparen => ?_))
      refine .ask (c := .forHead s u _) ?_ fun v _ hv _ => hv
      exact ⟨hknown, (leaves_take? _ _ hword).trans (reaches_of_ok (leaves_expect _ _) hparen)⟩
    | switchWord =>
      refine .bind (.since (.demand fun _ u h₂ _ => ?_))
      refine .bind (.since (.ask (c := .expression u) trivial ?_))
      rintro ⟨discriminant, v, h₃⟩ - (hdiscriminant : Laid root u.rest.length _ _)
      refine .bind (.since (.demand fun _ w h₄ _ => ?_))
      refine .bind (.since (.ask (c := .statement w) trivial ?_))
      rintro ⟨body, x, h₅⟩ - (hbody : Laid root w.rest.length _ _)
      exact .done fun hv => .stmt hknown (Call.reaches hv)
        (h₅.trans <| h₄.trans <| h₃.trans <| h₂.trans h₁) rfl rfl
        ((hdiscriminant.append (hbody.mono_left (Nat.le_of_lt h₄))).mono_left
          (Nat.le_of_lt (h₂.trans h₁)))
    | caseWord =>
      refine .bind (.since (.ask (c := .conditional t) trivial ?_))
      rintro ⟨value, u, h₂⟩ - (hvalue : Laid root t.rest.length _ _)
      refine .bind (.since (.demand fun _ v h₃ _ => ?_))
      exact .done fun hv => .stmt hknown (Call.reaches hv) (h₃.trans (h₂.trans h₁)) rfl rfl
        ((hvalue.mono_left (Nat.le_of_lt h₁)).mono_right (Nat.le_of_lt h₃))
    | defaultWord | breakWord | continueWord =>
      refine .bind (.since (.demand fun _ u h₂ _ => ?_))
      exact .done fun hv => .stmt hknown (Call.reaches hv) (h₂.trans h₁) rfl rfl
        (.empty (h₂.trans h₁))
    | gotoWord =>
      refine .bind (.since (.demand fun target u h₂ _ => ?_))
      refine .bind (.since (.demand fun _ v h₃ _ => ?_))
      exact .done fun hv => .stmt hknown (Call.reaches hv) (h₃.trans (h₂.trans h₁)) rfl rfl
        (.empty (h₃.trans (h₂.trans h₁)))

theorem external (hknown : Known root s) : Keeps root (.external s) := by
  refine .bind (.offer (fun _ => ?_) fun word t h₁ hword => ?_)
  · refine .bind (.offer (fun _ => ?_) fun name t h₁ hhead => ?_)
    · refine .bind (.ask (c := .typeSpec s) trivial ?_)
      rintro ⟨spec, t, h₁⟩ - -
      refine .bind (.offer (fun _ => ?_) fun _ u h₂ _ => ?_)
      · refine .bind (.ask (c := .declarator false s t h₁) trivial ?_)
        rintro ⟨d, u, h₂⟩ - (hd : Laid root t.rest.length _ _)
        have hd : Laid root s.rest.length d.parts u.rest.length :=
          hd.mono_left (Nat.le_of_lt h₁)
        refine .ite (fun _ => ?_) fun _ => ?_
        · refine .bind (.since (.ask (c := .compound u) trivial ?_))
          rintro ⟨body, v, h₃⟩ - (hbody : Laid root u.rest.length _ _)
          exact .done fun hv => .stmt hknown (Call.reaches hv) (h₃.trans h₂) rfl rfl
            (hd.append hbody)
        · refine .bind (.ask (c := .initDeclarators s [] d u h₂) hd ?_)
          rintro ⟨ds, v, h₃⟩ - (hds : Laid root s.rest.length _ _)
          refine .bind (.since (.demand fun _ w h₄ _ => ?_))
          exact .done fun hv => .stmt hknown (Call.reaches hv) (h₄.trans h₃) rfl rfl
            (hds.mono_right (Nat.le_of_lt h₄))
      · exact .done fun hv => .stmt hknown (Call.reaches hv) (h₂.trans h₁) rfl rfl
          (.empty (h₂.trans h₁))
    · refine .bind (.since (.demand fun _ u h₂ hbrace => ?_))
      refine .ask (c := .structTail s name [] [] u _) ?_ fun v _ hv _ => hv
      have hreaches : s.Reaches u :=
        (leaves_structHead? _ hhead).trans (reaches_of_ok (leaves_expect _ _) hbrace)
      exact ⟨⟨hknown, hreaches⟩, [], fun _ => Subtree.arranges_struct.mpr
        ⟨.refl _, .refl _, .refl _⟩, .empty (h₂.trans h₁)⟩
  · cases word with
    | usingWord =>
      refine .ask (c := .usingTail s t h₁) ?_ fun v _ hv _ => hv
      exact ⟨hknown, leaves_take? _ _ hword⟩
    | typedefWord =>
      refine .ask (c := .typedefTail s t h₁) ?_ fun v _ hv _ => hv
      exact ⟨hknown, leaves_take? _ _ hword⟩
    | namespaceWord =>
      refine .bind (.since (.demand fun name u h₂ _ => ?_))
      refine .bind (.offer (fun _ => ?_) fun _ v h₃ _ => ?_)
      · refine .bind (.since (.demand fun _ v h₃ _ => ?_))
        refine .bind (.ask (c := .namespaceTail s v _) trivial ?_)
        rintro ⟨_, w, h₄⟩ - -
        exact .done fun hv => .stmt hknown (Call.reaches hv) h₄ rfl rfl (.empty h₄)
      · refine .bind (.since (.ask (c := .path v) trivial ?_))
        rintro ⟨target, w, h₄⟩ - -
        refine .bind (.since (.demand fun _ x h₅ _ => ?_))
        have hx : x.Shorter s := h₅.trans <| h₄.trans <| h₃.trans <| h₂.trans h₁
        exact .done fun hv => .stmt hknown (Call.reaches hv) hx rfl rfl (.empty hx)

theorem structTail {name : String} {members : List MemberDecl} {methods : List FunctionDef}
    {parts : List Subtree} (h : Begins root s₀ s)
    (harranges : ∀ span, (Subtree.stmt
      (.struct span name members.reverse methods.reverse)).Arranges parts)
    (hlaid : Laid root s₀.rest.length parts s.rest.length) :
    Keeps root (.structTail s₀ name members methods s h') := by
  refine .ite (fun _ => ?_) fun _ => ?_
  · refine .bind (.demand fun _ t h₁ _ => ?_)
    refine .bind (.since (.demand fun _ u h₂ _ => ?_))
    exact .done fun hv => .node h.known (h.reaches.trans (Call.reaches hv))
      (h₂.trans (h₁.trans h')) rfl nofun (harranges _)
      (hlaid.mono_right (Nat.le_of_lt (h₂.trans h₁)))
  · refine .bind (.offer (fun _ => ?_) fun _ t h₁ haccess => ?_)
    · refine .bind (.ask (c := .typeSpec s) trivial ?_)
      rintro ⟨spec, t, h₁⟩ hspec -
      refine .bind (.ask (c := .declarator false s t h₁) trivial ?_)
      rintro ⟨d, u, h₂⟩ hd (hparts : Laid root t.rest.length _ _)
      have hparts : Laid root s.rest.length d.parts u.rest.length :=
        hparts.mono_left (Nat.le_of_lt h₁)
      have hreaches : s₀.Reaches u :=
        h.reaches.trans ((Call.reaches hspec).trans (Call.reaches hd))
      refine .ite (fun _ => ?_) fun _ => ?_
      · refine .bind (.since (.ask (c := .compound u) trivial ?_))
        rintro ⟨body, v, h₃⟩ hbody (hbodyLaid : Laid root u.rest.length _ _)
        refine .ask (c := .structTail s₀ name members (.mk spec d body :: methods) v _) ?_
          fun v _ hv _ => hv
        refine ⟨⟨h.known, hreaches.trans (Call.reaches hbody)⟩, _, fun span => ?_,
          hlaid.append (hparts.append hbodyLaid)⟩
        rw [List.reverse_cons]
        exact (harranges span).append_method (.mk spec d body)
      · refine .bind (.ask (c := .initDeclarators s [] d u h₂) hparts ?_)
        rintro ⟨ds, v, h₃⟩ hds (hdsLaid : Laid root s.rest.length _ _)
        refine .bind (.since (.demand fun _ w h₄ hclose => ?_))
        refine .ask ?_ fun v _ hv _ => hv
        have hmembers : (ds.map fun d => MemberDecl.mk spec d.declarator d.init).flatMap
            MemberDecl.parts = ds.flatMap InitDeclarator.parts := by
          rw [List.flatMap_map]
          rfl
        refine ⟨⟨h.known, hreaches.trans ((Call.reaches hds).trans
          (reaches_of_ok (leaves_expect _ _) hclose))⟩, _, fun span => ?_,
          (hlaid.append hdsLaid).mono_right (Nat.le_of_lt h₄)⟩
        rw [List.reverse_append, List.reverse_reverse]
        exact hmembers ▸ (harranges span).append_members _
    · refine .ask (c := .structTail s₀ name members methods t _) ?_ fun v _ hv _ => hv
      exact ⟨⟨h.known, h.reaches.trans (leaves_skipAccess? _ haccess)⟩, parts, harranges,
        hlaid.mono_right (Nat.le_of_lt h₁)⟩

theorem program : Keeps root (.program s) := by
  refine .ite (fun _ => .done fun _ => .nil (Nat.zero_le _)) fun _ => ?_
  refine .bind (.offer (fun _ => ?_) fun _ t h₁ _ => ?_)
  · refine .bind (.ask (c := .external s) trivial ?_)
    rintro ⟨item, t, h₁⟩ - (hitem : Laid root s.rest.length _ _)
    refine .bind (.ask (c := .program t) trivial ?_)
    rintro more - (hmore : Laid root t.rest.length _ _)
    exact .done fun _ => hitem.append hmore
  · exact .ask (c := .program t) trivial fun v _ hv _ => hv.mono_left (Nat.le_of_lt h₁)

end Keeps

/-- Each routine keeps its nodes in order. -/
theorem keeps {root c : Call} (hknown : Known root c.stream) (hready : Ready root c) :
    Keeps root c := by
  cases c with
  | expression => exact .expression hknown
  | commaTail => exact .commaTail hready
  | assignment => exact .assignment hknown
  | conditional => exact .conditional hknown
  | disjunction => exact .disjunction hknown
  | disjunctionTail => exact .disjunctionTail hready
  | conjunction => exact .conjunction hknown
  | conjunctionTail => exact .conjunctionTail hready
  | binary least => exact .binary least hknown
  | binaryTail => exact .binaryTail hready
  | unary => exact .unary hknown
  | trailing => exact .trailing hknown hready
  | trailingTail => exact .trailingTail hready
  | argumentsTail => exact .argumentsTail hready
  | primary => exact .primary hknown hready
  | initializer => exact .initializer
  | braceList => exact .braceList
  | braceTail => exact .braceTail hready
  | typeName => exact .typeName
  | declarator allowAbstract => exact .declarator allowAbstract
  | suffixesTail => exact .suffixesTail hready
  | paramsTail => exact .paramsTail hready
  | defaultArgument => exact .defaultArgument
  | initDeclarators => exact .initDeclarators hready
  | moreDeclarators => exact .moreDeclarators hready
  | typedefTail => exact .typedefTail hready
  | usingTail => exact .usingTail hready
  | optionalBefore x role => exact .optionalBefore x role
  | compound => exact .compound hknown
  | blockTail => exact .blockTail hready
  | statement => exact .statement hknown
  | forHead => exact .forHead hready hknown
  | forClauses => exact .forClauses hready.1 hready.2
  | external => exact .external hknown
  | structTail =>
    obtain ⟨hbegins, parts, harranges, hlaid⟩ := hready
    exact .structTail hbegins harranges hlaid
  | program => exact .program
  | _ => exact fun _ _ _ _ => trivial

/-- What a call gives lies in order, whatever calls it comes of. -/
theorem lays {root c : Call} (hc : Relation.ReflTransGen Call.Makes root c) {v : c.Value}
    (hv : c.answer = .ok v) (hready : Ready root c) : Lays root c v := by
  induction c using Call.lower_wellFounded.induction with
  | h c ih =>
    refine keeps ⟨c, hc, rfl⟩ hready v _ (c.gives hv fun c' v' hmakes hlower hv' => ?_) hv
    exact ⟨hv', ⟨c', hc.tail hmakes, rfl⟩, ih c' hlower (hc.tail hmakes) hv'⟩

end Parse

end Stepwise
