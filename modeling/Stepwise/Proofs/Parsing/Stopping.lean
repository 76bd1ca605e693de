import Mathlib.Logic.Relation
import Stepwise.Proofs.Parsing.Running
import Stepwise.Proofs.Token.Layout

/-! # Parsing stops

Every call that a routine makes, its own next round included, leaves it fewer tokens, or the
same tokens at a lower level of the grammar. What a routine takes are the tokens that come
next, so that a parse takes each token once and in order.
-/

namespace Stepwise

namespace Token

theorem lastSpan_append (sp : Span) (ts us : List Token) :
    lastSpan sp (ts ++ us) = lastSpan (lastSpan sp ts) us := by
  cases us using List.reverseRecOn with
  | nil => simp [lastSpan]
  | append_singleton us u => simp [lastSpan, List.getLast?_append]

end Token

namespace Tokens

/-- Where a stream stands: the tokens that it has left, and the span of the one it took last. -/
structure Place where
  rest : List Token
  previous : Span

/-- From one place the tokens lead to another. -/
def Place.Leads (p : Place) (ts : List Token) (q : Place) : Prop :=
  p.rest = ts ++ q.rest ∧ q.previous = Token.lastSpan p.previous ts

theorem Place.Leads.append {p q r : Place} {ts us : List Token} (h : p.Leads ts q)
    (h' : q.Leads us r) : p.Leads (ts ++ us) r :=
  ⟨by rw [h.1, h'.1, List.append_assoc], by rw [h'.2, h.2, Token.lastSpan_append]⟩

theorem Place.Leads.unique {p q r : Place} {ts : List Token} (h : p.Leads ts q)
    (h' : p.Leads ts r) : q = r := by
  obtain ⟨rest, previous⟩ := q
  obtain ⟨rest', previous'⟩ := r
  obtain rfl : rest = rest' := List.append_cancel_left (h.1.symm.trans h'.1)
  obtain rfl : previous = previous' := h.2.trans h'.2.symm
  rfl

theorem Place.leads_nil (p : Place) : p.Leads [] p := ⟨rfl, rfl⟩

variable {r s t : Tokens} {α : Type}

def place (s : Tokens) : Place := ⟨s.rest, s.previous⟩

@[simp] theorem declareType_place (s : Tokens) (name : String) :
    (s.declareType name).place = s.place := rfl

/-- Taking tokens leads from the one stream to the other. -/
def Reaches (s t : Tokens) : Prop := ∃ ts, s.place.Leads ts t.place

namespace Reaches

theorem refl (s : Tokens) : s.Reaches s := ⟨[], s.place.leads_nil⟩

theorem trans (h : s.Reaches t) (h' : t.Reaches r) : s.Reaches r := by
  obtain ⟨ts, h⟩ := h
  obtain ⟨us, h'⟩ := h'
  exact ⟨ts ++ us, h.append h'⟩

theorem suffix (h : s.Reaches t) : t.rest <:+ s.rest := by
  obtain ⟨ts, h, -⟩ := h
  exact ⟨ts, h.symm⟩

/-- The last of the tokens that are left stays the same. -/
theorem lastSpan_eq (h : s.Reaches t) :
    Token.lastSpan t.previous t.rest = Token.lastSpan s.previous s.rest := by
  obtain ⟨ts, hrest : s.rest = ts ++ t.rest, hprevious : t.previous = _⟩ := h
  rw [hrest, hprevious, Token.lastSpan_append]
  rfl

end Reaches

/-- What was read from the stream leads on in it. -/
def Leaves (s : Tokens) (o : Option (Parsed s α)) : Prop := ∀ p ∈ o, s.Reaches p.next

@[simp] theorem leaves_none : s.Leaves (none : Option (Parsed s α)) := nofun

@[simp] theorem leaves_take? (f : Lexeme → Option α) : s.Leaves (s.take? f) := by
  obtain ⟨rest, finish, previous, typeNames⟩ := s
  cases rest with
  | nil => exact leaves_none
  | cons tok toks =>
    intro p hp
    simp only [take?, Option.mem_def, Option.map_eq_some_iff] at hp
    obtain ⟨a, -, rfl⟩ := hp
    exact ⟨[tok], rfl, rfl⟩

@[simp] theorem leaves_accept? (x : Symbol) : s.Leaves (s.accept? x) := leaves_take? _

@[simp] theorem leaves_acceptKeyword? (x : Keyword) : s.Leaves (s.acceptKeyword? x) :=
  leaves_take? _

@[simp] theorem leaves_binaryOperator? (least : Nat) : s.Leaves (s.binaryOperator? least) :=
  leaves_take? _

@[simp] theorem leaves_ite {p : Prop} [Decidable p] {o o' : Option (Parsed s α)}
    (h : s.Leaves o) (h' : s.Leaves o') : s.Leaves (if p then o else o') := by
  split
  · exact h
  · exact h'

@[simp] theorem leaves_label? : s.Leaves s.label? := by
  intro p hp
  rw [label?] at hp
  cases hname : s.take? Lexeme.identifier? with
  | none => simp [hname] at hp
  | some q =>
    cases hcolon : q.next.accept? .colon with
    | none => simp [hname, hcolon, since_none] at hp
    | some r =>
      simp only [hname, hcolon, since_some, Option.mem_def, Option.some.injEq] at hp
      subst hp
      exact (leaves_take? _ q hname).trans (leaves_accept? _ r hcolon)

@[simp] theorem leaves_skipAccess? : s.Leaves s.skipAccess? := by
  intro p hp
  rw [skipAccess?] at hp
  split at hp
  · cases hp
  · rename_i _ s₁ h₁ hmark
    cases hcolon : s₁.accept? .colon with
    | none => simp [hcolon, since_none] at hp
    | some r =>
      simp only [hcolon, since_some, Option.mem_def, Option.some.injEq] at hp
      subst hp
      exact (leaves_take? _ _ hmark).trans (leaves_accept? _ r hcolon)

@[simp] theorem leaves_structHead? : s.Leaves s.structHead? := by
  intro p hp
  rw [structHead?] at hp
  split at hp
  case isFalse => cases hp
  case isTrue =>
    cases hword : s.acceptKeyword? .structWord with
    | none => simp [hword] at hp
    | some q =>
      cases hname : q.next.take? Lexeme.identifier? with
      | none => simp [hword, hname, since_none] at hp
      | some r =>
        simp only [hword, hname, since_some, Option.mem_def, Option.some.injEq] at hp
        subst hp
        exact (leaves_acceptKeyword? _ q hword).trans (leaves_take? _ r hname)

@[simp] theorem leaves_expect (x : Symbol) (role : String) :
    s.Leaves (s.expect x role).toOption := by
  intro p hp
  cases h : s.accept? x with
  | none => rw [expect, h] at hp; cases hp
  | some q =>
    rw [expect, h] at hp
    cases hp
    exact leaves_accept? x _ h

@[simp] theorem leaves_expectKeyword (x : Keyword) (role : String) :
    s.Leaves (s.expectKeyword x role).toOption := by
  intro p hp
  cases h : s.acceptKeyword? x with
  | none => rw [expectKeyword, h] at hp; cases hp
  | some q =>
    rw [expectKeyword, h] at hp
    cases hp
    exact leaves_acceptKeyword? x _ h

@[simp] theorem leaves_expectIdentifier : s.Leaves s.expectIdentifier.toOption := by
  intro p hp
  cases h : s.take? Lexeme.identifier? with
  | none => rw [expectIdentifier, h] at hp; cases hp
  | some q =>
    rw [expectIdentifier, h] at hp
    cases hp
    exact leaves_take? _ _ h

theorem reaches_skip (x : Symbol) : s.Reaches (s.skip x).2.1 := by
  cases h : s.accept? x with
  | none => rw [skip, h]; exact .refl s
  | some p => rw [skip, h]; exact leaves_accept? x p h

theorem reaches_skipVoid : s.Reaches s.skipVoid.1 := by
  rw [skipVoid]
  split
  · split
    · rename_i h
      exact leaves_take? _ _ h
    · exact .refl s
  · exact .refl s

end Tokens

namespace Parse

open Script

namespace Call

/-- A call has fewer tokens to read than another, or as many at a lower level. -/
def Lower (c' c : Call) : Prop :=
  c'.stream.rest.length < c.stream.rest.length ∨
    c'.stream.rest.length = c.stream.rest.length ∧ c'.level < c.level

theorem lower_wellFounded : WellFounded Lower := by
  refine Subrelation.wf ?_ (InvImage.wf (fun c : Call => (c.stream.rest.length, c.level))
    (Prod.lex Nat.lt_wfRel Nat.lt_wfRel).wf)
  exact fun h => Prod.lex_def.mpr h

/-- The stream that the phrase of a call began in. -/
def origin : Call → Tokens
  | pathTail s _ _ _ | path s | words s _ _ _ _ _ | typeSpec s | stringTail s _ _ _ _
  | pointerWords s _ _ _ | pointers _ s | expression s | commaTail s _ _ _ | assignment s
  | conditional s | disjunction s | disjunctionTail s _ _ _ | conjunction s
  | conjunctionTail s _ _ _ | binary _ s | binaryTail _ s _ _ _ | unary s | trailing s
  | trailingTail s _ _ _ | argumentsTail s _ _ _ | primary s | initializer s | braceList s
  | braceTail s _ _ _ | typeName s | declarator _ s _ _ | suffixesTail s _ _ _ _ _ _ _
  | paramsTail s _ _ _ | defaultArgument s _ _ | initDeclarators s _ _ _ _
  | moreDeclarators s _ _ _ | typedefTail s _ _ | usingTail s _ _ | optionalBefore _ _ s
  | compound s | blockTail s _ _ _ | statement s | forHead s _ _ | forClauses s _ _ _
  | external s | namespaceTail s _ _ | structTail s _ _ _ _ _ | program s => s

/-- The fewest tokens that the phrase of a call has. -/
def shortest : Call → Nat
  | pointers .. | program .. => 0
  | _ => 1

theorem left_length_add_shortest_le (c : Call) (v : c.Value) :
    (c.left v).length + c.shortest ≤ c.origin.rest.length := by
  cases c
  case pointers marks s => exact v.2.2
  case program => exact Nat.zero_le _
  all_goals exact v.shorter

end Call

namespace Script

variable {α β : Type}

/-- The script of `caller` goes on from the place `r`: it takes the tokens that come next, it calls
what is below the caller on those that are left, and `Q` holds of what it gives and of the place
where it ends. -/
def Along (caller : Call) : Script α → Tokens.Place → (α → Tokens.Place → Prop) → Prop
  | done a, r, Q => Q a r
  | fail _, _, _ => True
  | take ts p, r, Q => ∃ r', r.Leads ts r' ∧ p.Along caller r' Q
  | call c k, r, Q => c.stream.place = r ∧ c.Lower caller ∧
    ∀ v, c.stream.Reaches (c.next v) → (c.left v).length + c.shortest ≤ c.origin.rest.length →
      (k v).Along caller (c.next v).place Q

section

variable {c : Call} {r : Tokens.Place} {Q : α → Tokens.Place → Prop}

theorem along_done {a : α} : (done a).Along c r Q ↔ Q a r := Iff.rfl

theorem along_pure {a : α} : (pure a : Script α).Along c r Q ↔ Q a r := Iff.rfl

theorem along_call {c' : Call} {k : c'.Value → Script α} : (call c' k).Along c r Q ↔
    c'.stream.place = r ∧ c'.Lower c ∧
    ∀ v, c'.stream.Reaches (c'.next v) →
      (c'.left v).length + c'.shortest ≤ c'.origin.rest.length →
      (k v).Along c (c'.next v).place Q := Iff.rfl

theorem along_bind {p : Script β} {f : β → Script α} :
    (p >>= f).Along c r Q ↔ p.Along c r fun b r' => (f b).Along c r' Q := by
  induction p generalizing r with
  | done b => rfl
  | fail e => rfl
  | take ts p ih => exact exists_congr fun r' => and_congr_right fun _ => ih
  | call c' k ih =>
    exact and_congr_right fun _ => and_congr_right fun _ => forall_congr' fun v =>
      forall_congr' fun _ => forall_congr' fun _ => ih v

theorem along_since {s t : Tokens} {h : t.Shorter s} {p : Script (Parsed t α)}
    {Q : Parsed s α → Tokens.Place → Prop} :
    (since h p).Along c r Q ↔
      p.Along c r fun a r' => Q ⟨a.value, a.next, a.shorter.trans h⟩ r' :=
  along_bind

theorem along_takeTo {s t : Tokens} (h : s.Reaches t) {Q : Unit → Tokens.Place → Prop} :
    (takeTo s t).Along c s.place Q ↔ (t.rest.length ≤ s.rest.length → Q () t.place) := by
  obtain ⟨ts, hts⟩ := h
  have hrest : s.rest = ts ++ t.rest := hts.1
  have htake : s.rest.take (s.rest.length - t.rest.length) = ts := by simp [hrest]
  have hle : t.rest.length ≤ s.rest.length := by simp [hrest]
  simp only [takeTo, Along, htake, hle, true_imp_iff]
  constructor
  · rintro ⟨r', hr', hq⟩
    rwa [hts.unique hr']
  · exact fun hq => ⟨t.place, hts, hq⟩

theorem along_offer {s : Tokens} {o : Option (Parsed s α)} (ho : s.Leaves o)
    {Q : Option (Parsed s α) → Tokens.Place → Prop} :
    (offer o).Along c s.place Q ↔ (o = none → Q none s.place) ∧
      ∀ a t h, o = some ⟨a, t, h⟩ → Q (some ⟨a, t, h⟩) t.place := by
  cases o with
  | none => simp [offer, along_done]
  | some p =>
    obtain ⟨a, t, h⟩ := p
    simp only [offer, along_bind, along_takeTo (ho _ rfl), Nat.le_of_lt h, true_imp_iff, along_pure]
    refine ⟨fun hq => ⟨nofun, ?_⟩, fun hq => hq.2 a t h rfl⟩
    rintro a t h ⟨⟩
    exact hq

theorem along_demand {s : Tokens} {x : Attempt (Parsed s α)} (hx : s.Leaves x.toOption)
    (hr : s.place = r) {Q : Parsed s α → Tokens.Place → Prop} :
    (demand x).Along c r Q ↔ ∀ a t h, x = .ok ⟨a, t, h⟩ → Q ⟨a, t, h⟩ t.place := by
  subst hr
  cases x with
  | error e => exact iff_of_true trivial nofun
  | ok p =>
    obtain ⟨a, t, h⟩ := p
    simp only [demand, along_bind, along_takeTo (hx _ rfl), Nat.le_of_lt h, true_imp_iff, along_pure]
    refine ⟨?_, fun hq => hq a t h rfl⟩
    rintro hq a t h ⟨⟩
    exact hq

theorem along_demand_fail {s t : Tokens} {what : String} {Q : Parsed s α → Tokens.Place → Prop} :
    (demand (t.fail what : Attempt (Parsed s α))).Along c r Q :=
  trivial

theorem along_ite {b : Prop} [Decidable b] {p q : Script α} :
    (if b then p else q).Along c r Q ↔ (b → p.Along c r Q) ∧ (¬b → q.Along c r Q) := by
  split <;> simp [*]

theorem along_dite {b : Prop} [Decidable b] {p : b → Script α} {q : ¬b → Script α} :
    (if h : b then p h else q h).Along c r Q ↔
      (∀ h, (p h).Along c r Q) ∧ ∀ h, (q h).Along c r Q := by
  split <;> simp [*]

end

end Script

theorem SpecWord.forall_iff {p : SpecWord → Prop} :
    (∀ w, p w) ↔ (∀ w, p (.specifier w)) ∧ (∀ w, p (.word w)) ∧ p .structWord :=
  ⟨fun h => ⟨fun _ => h _, fun _ => h _, h _⟩, fun ⟨h, h', h''⟩ w => by cases w <;> apply_assumption⟩

theorem DeclKeyword.forall_iff {p : DeclKeyword → Prop} :
    (∀ k, p k) ↔ p .usingWord ∧ p .namespaceWord ∧ p .typedefWord :=
  ⟨fun h => ⟨h _, h _, h _⟩, fun ⟨h, h', h''⟩ k => by cases k <;> assumption⟩

theorem StmtKeyword.forall_iff {p : StmtKeyword → Prop} :
    (∀ k, p k) ↔ p .ifWord ∧ p .whileWord ∧ p .doWord ∧ p .forWord ∧ p .switchWord ∧ p .caseWord ∧
      p .defaultWord ∧ p .breakWord ∧ p .continueWord ∧ p .returnWord ∧ p .gotoWord :=
  ⟨fun h => by simp only [h, and_self],
    fun ⟨h₁, h₂, h₃, h₄, h₅, h₆, h₇, h₈, h₉, h₁₀, h₁₁⟩ k => by cases k <;> assumption⟩

namespace Call

/-- Every routine goes along the tokens it is given, and calls only what is below it. -/
theorem along_script (c : Call) :
    c.script.Along c c.stream.place fun v r => r = (c.next v).place := by
  cases c
  all_goals
    simp only [script, stream, level, left, next, shortest, origin, Lower, ask, along_bind, along_since,
      along_offer, along_demand, along_demand_fail, along_takeTo, along_call, along_done,
      along_pure, along_ite, along_dite, Tokens.leaves_none, Tokens.leaves_take?,
      Tokens.leaves_accept?, Tokens.leaves_acceptKeyword?, Tokens.leaves_binaryOperator?,
      Tokens.leaves_ite, Tokens.leaves_label?, Tokens.leaves_skipAccess?, Tokens.leaves_structHead?,
      Tokens.leaves_expect, Tokens.leaves_expectKeyword, Tokens.leaves_expectIdentifier,
      Tokens.reaches_skip, Tokens.reaches_skipVoid, since_some, since_none, SpecWord.forall_iff,
      StmtKeyword.forall_iff, DeclKeyword.forall_iff, true_and, and_true, implies_true,
      Nat.lt_irrefl, Nat.reduceLT, and_false, or_false, or_true, and_self, Nat.not_lt_zero]
  case program s =>
    refine ⟨fun hend => ?_, fun _ => ⟨fun _ v hv hshort => ⟨hshort, fun _ _ _ => ?_⟩,
      fun _ t h haccept => ⟨h, fun _ _ _ => ?_⟩⟩⟩
    · simp only [Tokens.place, List.isEmpty_iff.mp hend]
      rfl
    · simp only [Tokens.place, hv.lastSpan_eq]
    · simp only [Tokens.place, (Tokens.leaves_accept? _ _ haccept).lastSpan_eq]
  case' external =>
    simp only [along_demand (Tokens.leaves_expect _ _) (Tokens.declareType_place _ _),
      Tokens.Shorter, Tokens.declareType_rest, true_and]
  case' declarator => rintro ⟨marks, s₁, h₁⟩; dsimp only
  -- What is left is that the lengths of the streams go down.
  all_goals
    repeat' first | intro _ | apply And.intro
    all_goals first | omega | rfl

end Call

namespace Script

variable {α : Type}

/-- The script comes to an end with a result, having taken tokens; and so does every call that it
makes. -/
inductive Ends : {α : Type} → Script α → List Token → Attempt α → Prop
  | done {α : Type} (a : α) : Ends (.done a) [] (.ok a)
  | fail {α : Type} (e : ParseError) : Ends (.fail e : Script α) [] (.error e)
  | take {α : Type} {p : Script α} {ts us : List Token} {a : Attempt α} :
    Ends p us a → Ends (.take ts p) (ts ++ us) a
  | call {α : Type} {c : Call} {k : c.Value → Script α} {v : c.Value} {ts us : List Token}
    {a : Attempt α} : Ends c.script ts (.ok v) → Ends (k v) us a → Ends (.call c k) (ts ++ us) a
  | callFails {α : Type} {c : Call} {k : c.Value → Script α} {ts : List Token} {e : ParseError} :
    Ends c.script ts (.error e) → Ends (.call c k) ts (.error e)

/-- The script makes the call, once those before it have been answered. -/
def Makes : Script α → Call → Prop
  | done _, _ | fail _, _ => False
  | take _ p, c => p.Makes c
  | call c k, c' => c' = c ∨ ∃ v, c.answer = .ok v ∧ (k v).Makes c'

end Script

namespace Call

/-- The call ends with its answer; the tokens it has taken come next in its stream, and after them
those it leaves. -/
def Settles (c : Call) : Prop :=
  ∃ ts, c.script.Ends ts c.answer ∧ ts <+: c.stream.rest ∧
    ∀ v, c.answer = .ok v → c.stream.place.Leads ts (c.next v).place

theorem Settles.reaches {c : Call} (h : c.Settles) {v : c.Value} (hv : c.answer = .ok v) :
    c.stream.Reaches (c.next v) := by
  obtain ⟨ts, -, -, hleads⟩ := h
  exact ⟨ts, hleads v hv⟩

end Call

/-- A script ends if what is below its caller does. -/
theorem Script.Along.exists_ends {α : Type} {caller : Call} {p : Script α} {r : Tokens.Place}
    {Q : α → Tokens.Place → Prop} (h : p.Along caller r Q)
    (hsettles : ∀ c : Call, c.Lower caller → c.Settles) :
    ∃ ts, p.Ends ts p.run ∧ ts <+: r.rest ∧
      ∀ a, p.run = .ok a → ∃ r', r.Leads ts r' ∧ Q a r' := by
  induction p generalizing r with
  | done a =>
    refine ⟨[], .done a, List.nil_prefix, ?_⟩
    rintro _ ⟨⟩
    exact ⟨r, r.leads_nil, h⟩
  | fail e => exact ⟨[], .fail e, List.nil_prefix, nofun⟩
  | take ts p ih =>
    obtain ⟨r', hleads, h⟩ := h
    obtain ⟨us, hends, hpre, hok⟩ := ih h
    refine ⟨ts ++ us, .take hends, hleads.1 ▸ (List.prefix_append_right_inj ts).mpr hpre,
      fun a ha => ?_⟩
    obtain ⟨r'', hleads', hq⟩ := hok a ha
    exact ⟨r'', hleads.append hleads', hq⟩
  | call c k ih =>
    obtain ⟨rfl, hlower, hk⟩ := h
    have hc := hsettles c hlower
    obtain ⟨ts, hends, hpre, hleads⟩ := id hc
    rw [run_call]
    cases hanswer : c.answer with
    | error e =>
      rw [hanswer] at hends
      exact ⟨ts, .callFails hends, hpre, nofun⟩
    | ok v =>
      rw [hanswer] at hends
      obtain ⟨us, hends', hpre', hok⟩ :=
        ih v (hk v (hc.reaches hanswer) (c.left_length_add_shortest_le v))
      refine ⟨ts ++ us, .call hends hends',
        (hleads v hanswer).1 ▸ (List.prefix_append_right_inj ts).mpr hpre', fun a ha => ?_⟩
      obtain ⟨r'', hr, hq⟩ := hok a ha
      exact ⟨r'', (hleads v hanswer).append hr, hq⟩

/-- Every call of every routine settles. -/
theorem Call.settles (c : Call) : c.Settles := by
  induction c using lower_wellFounded.induction with
  | _ c ih =>
    obtain ⟨ts, hends, hpre, hok⟩ := c.along_script.exists_ends ih
    rw [c.run_script] at hends hok
    refine ⟨ts, hends, hpre, fun v hv => ?_⟩
    obtain ⟨r, hr, rfl⟩ := hok v hv
    exact hr

namespace Call

/-- A call is made in the course of another, which has not ended then. -/
def Makes (c c' : Call) : Prop := c.script.Makes c'

/-- A call has fewer tokens to read than another, or the same ones at a lower level; those that it
has are the last ones of the other. -/
structure Below (c' c : Call) : Prop where
  suffix : c'.stream.rest <:+ c.stream.rest
  lower : c'.stream.rest.length < c.stream.rest.length ∨
    c'.stream.rest = c.stream.rest ∧ c'.level < c.level

end Call

theorem Script.Along.below_of_makes {α : Type} {caller : Call} {p : Script α} {r : Tokens.Place}
    {Q : α → Tokens.Place → Prop} (h : p.Along caller r Q) (hr : r.rest <:+ caller.stream.rest)
    {c : Call} (hc : p.Makes c) : c.Below caller := by
  induction p generalizing r with
  | done | fail => exact hc.elim
  | take ts p ih =>
    obtain ⟨r', ⟨hrest, -⟩, h⟩ := h
    exact ih h ((hrest ▸ List.suffix_append ts r'.rest).trans hr) hc
  | call c' k ih =>
    obtain ⟨rfl, hlower, hk⟩ := h
    obtain rfl | ⟨v, hv, hc⟩ := hc
    · exact ⟨hr, hlower.imp_right fun ⟨hlen, hlt⟩ => ⟨hr.eq_of_length hlen, hlt⟩⟩
    · have hreaches := c'.settles.reaches hv
      exact ih v (hk v hreaches (c'.left_length_add_shortest_le v)) (hreaches.suffix.trans hr) hc

theorem Call.Makes.below {c c' : Call} (h : c.Makes c') : c'.Below c :=
  c.along_script.below_of_makes List.suffix_rfl h

/-- The calls that come of a call reach no further than its tokens do. -/
theorem Call.suffix_of_reaches {c c' : Call} (h : Relation.ReflTransGen Call.Makes c c') :
    c'.stream.rest <:+ c.stream.rest := by
  induction h with
  | refl => exact List.suffix_rfl
  | tail _ hmakes ih => exact hmakes.below.suffix.trans ih

end Parse

open Parse

/-- **The parser stops.** A text has a program or an error. The answer of a call is what its script
makes of the answers of further calls, and each of these, the next round of a loop too, is below the
call that makes it. Parsing the tokens of a text ends; no call reads past the mark at their end; and
the tokens taken are the first ones, each once and in order, and all of them where there is a
program. -/
theorem parsing_stops (source : String) :
    ((∃ program, Program.parse source = .ok program) ∨ ∃ e, Program.parse source = .error e) ∧
    (∀ c : Call, c.script.run = c.answer ∧ ∀ c', c.Makes c' → c'.Below c) ∧
    ∀ tokens, (scan source).tokens = .ok tokens →
      ∃ body mark taken, tokens = body ++ [mark] ∧ mark.lexeme = .endOfFile ∧
        (∀ c, Relation.ReflTransGen Call.Makes (.program (.ofList (scan source).includes tokens)) c →
          c.stream.rest <:+ body) ∧
        (Call.program (.ofList (scan source).includes tokens)).script.Ends taken
          (Parse.items (.ofList (scan source).includes tokens)) ∧
        taken <+: body ∧ ∀ program, Program.parse source = .ok program → taken = body := by
  refine ⟨?_, fun c => ⟨c.run_script, fun c' h => h.below⟩, fun tokens htokens => ?_⟩
  · cases Program.parse source with
    | ok program => exact .inl ⟨program, rfl⟩
    | error e => exact .inr ⟨e, rfl⟩
  obtain ⟨body, mark, rfl, hmark, -⟩ := (scan_follow htokens).exists_last
  have hrest : (Tokens.ofList (scan source).includes (body ++ [mark])).rest = body :=
    List.dropLast_concat
  obtain ⟨taken, hends, hpre, hleads⟩ :=
    (Call.program (.ofList (scan source).includes (body ++ [mark]))).settles
  rw [Call.stream, hrest] at hpre
  refine ⟨body, mark, taken, rfl, hmark, fun c hc => hrest ▸ Call.suffix_of_reaches hc, hends,
    hpre, fun program hprogram => ?_⟩
  rw [Program.parse, htokens] at hprogram
  cases hitems : Parse.items (.ofList (scan source).includes (body ++ [mark])) with
  | error e => simp [hitems] at hprogram
  | ok items => exact ((List.append_nil taken).symm.trans (hleads items hitems).1.symm).trans hrest

theorem parsing_stops_semicolon :
    ∃ (body : List Token) (mark : Token) (taken : List Token),
      [⟨.symbol .semicolon, ⟨0, 1, 1, 1⟩⟩, ⟨.endOfFile, ⟨1, 1, 1, 2⟩⟩] = body ++ [mark] ∧ mark.lexeme = .endOfFile ∧ taken <+: body := by
  obtain ⟨body, mark, taken, htokens, hmark, -, -, hpre, -⟩ :=
    (parsing_stops ";").2.2 [⟨.symbol .semicolon, ⟨0, 1, 1, 1⟩⟩, ⟨.endOfFile, ⟨1, 1, 1, 2⟩⟩] (by cbv)
  exact ⟨body, mark, taken, htokens, hmark, hpre⟩

end Stepwise
