import Stepwise.Proofs.Parsing.Stopping
import Stepwise.Proofs.Phrases.Pieces

/-! # Routines on a piece

A routine that stops within a piece does the same on the piece alone: it makes the same
calls there, and what it gives is the same up to where the spans are. Looking ahead makes no
difference, since a routine that decides by what it sees there goes on to take it.
-/

namespace Stepwise.Parse

/-! ## What a script gives

A successful run of a script makes calls that are answered, and takes tokens. A contract says
what holds of the result if what is known of the answers holds.
-/

section Runs

namespace Script

variable {α β : Type} {P : (c : Call) → c.Value → Prop}

/-- The script gives `b` and takes `n` tokens; `P` holds of the calls that it makes and of what
these give. -/
def Gives (P : (c : Call) → c.Value → Prop) : Script α → α → Nat → Prop
  | done a, b, n => b = a ∧ n = 0
  | fail _, _, _ => False
  | take ts p, b, n => ∃ m, p.Gives P b m ∧ n = ts.length + m
  | call c k, b, n =>
    ∃ v m, P c v ∧ (k v).Gives P b m ∧ n = c.stream.rest.length - (c.left v).length + m

theorem Gives.mono {P' : (c : Call) → c.Value → Prop} (hP : ∀ c v, P c v → P' c v) {p : Script α}
    {a : α} {n : Nat} (h : p.Gives P a n) : p.Gives P' a n := by
  induction p generalizing n with
  | done b => exact h
  | fail e => exact h
  | take ts p ih =>
    obtain ⟨m, h, rfl⟩ := h
    exact ⟨m, ih h, rfl⟩
  | call c k ih =>
    obtain ⟨v, m, hv, h, rfl⟩ := h
    exact ⟨v, m, hP c v hv, ih v h, rfl⟩

theorem gives_bind {p : Script β} {f : β → Script α} {a : α} {n : Nat} :
    (p >>= f).Gives P a n ↔ ∃ b m j, p.Gives P b m ∧ (f b).Gives P a j ∧ n = m + j := by
  induction p generalizing n with
  | done b =>
    constructor
    · exact fun h => ⟨b, 0, n, ⟨rfl, rfl⟩, h, (Nat.zero_add n).symm⟩
    · rintro ⟨_, _, j, ⟨rfl, rfl⟩, h, rfl⟩
      rwa [Nat.zero_add]
  | fail e =>
    constructor
    · exact fun h => h.elim
    · rintro ⟨_, _, _, h, -, -⟩
      exact h.elim
  | take ts p ih =>
    constructor
    · rintro ⟨m, h, rfl⟩
      obtain ⟨b, i, j, hb, ha, rfl⟩ := ih.mp h
      exact ⟨b, ts.length + i, j, ⟨i, hb, rfl⟩, ha, (Nat.add_assoc _ _ _).symm⟩
    · rintro ⟨b, _, j, ⟨i, hb, rfl⟩, ha, rfl⟩
      exact ⟨i + j, ih.mpr ⟨b, i, j, hb, ha, rfl⟩, Nat.add_assoc _ _ _⟩
  | call c k ih =>
    constructor
    · rintro ⟨v, m, hv, h, rfl⟩
      obtain ⟨b, i, j, hb, ha, rfl⟩ := (ih v).mp h
      exact ⟨b, _, j, ⟨v, i, hv, hb, rfl⟩, ha, (Nat.add_assoc _ _ _).symm⟩
    · rintro ⟨b, _, j, ⟨v, i, hv, hb, rfl⟩, ha, rfl⟩
      exact ⟨v, i + j, hv, (ih v).mpr ⟨b, i, j, hb, ha, rfl⟩, Nat.add_assoc _ _ _⟩

/-- A script that runs along its tokens gives its result. -/
theorem Along.gives {caller : Call} {p : Script α} {r : Tokens.Place}
    {Q : α → Tokens.Place → Prop} (h : p.Along caller r Q) {a : α} (ha : p.run = .ok a)
    (hP : ∀ c v, p.Makes c → c.Lower caller → c.answer = .ok v → P c v) :
    ∃ r' n, p.Gives P a n ∧ r.rest.length = n + r'.rest.length ∧ Q a r' := by
  induction p generalizing r with
  | done b =>
    cases ha
    exact ⟨r, 0, ⟨rfl, rfl⟩, (Nat.zero_add _).symm, h⟩
  | fail e => cases ha
  | take ts p ih =>
    obtain ⟨r', hleads, h⟩ := h
    obtain ⟨r'', n, hn, hlen, hq⟩ := ih h ha hP
    have hrest := congrArg List.length hleads.1
    rw [List.length_append] at hrest
    exact ⟨r'', ts.length + n, ⟨n, hn, rfl⟩, by omega, hq⟩
  | call c k ih =>
    obtain ⟨rfl, hlower, hk⟩ := h
    rw [run_call] at ha
    cases hv : c.answer with
    | error e => rw [hv] at ha; cases ha
    | ok v =>
      rw [hv] at ha
      have hreaches := c.settles.reaches hv
      obtain ⟨r', n, hn, hlen, hq⟩ := ih v (hk v hreaches (c.left_length_add_shortest_le v)) ha
        fun c' v' hmakes => hP c' v' (.inr ⟨v, hv, hmakes⟩)
      have hle : (c.left v).length ≤ c.stream.rest.length := hreaches.suffix.length_le
      have hlen : (c.left v).length = n + r'.rest.length := hlen
      refine ⟨r', _, ⟨v, n, hP c v (.inl rfl) hlower hv, hn, rfl⟩, ?_, hq⟩
      change c.stream.rest.length = _
      omega

end Script

namespace Call

variable {P : (c : Call) → c.Value → Prop}

theorem left_length_le {c : Call} {v : c.Value} (hv : c.answer = .ok v) :
    (c.left v).length ≤ c.stream.rest.length :=
  (c.settles.reaches hv).suffix.length_le

/-- The script of a successful call gives its answer. -/
theorem gives {c : Call} {v : c.Value} (hv : c.answer = .ok v)
    (hP : ∀ c' v', c.Makes c' → c'.Lower c → c'.answer = .ok v' → P c' v') :
    c.script.Gives P v (c.stream.rest.length - (c.left v).length) := by
  obtain ⟨r, n, hn, hlen, rfl⟩ := c.along_script.gives (c.run_script.trans hv) hP
  simp only [Tokens.place] at hlen
  rwa [hlen, Nat.add_sub_cancel]

end Call

namespace Script

variable {α β : Type} {s t : Tokens}

/-- A successful run of the script takes `m` tokens or more. -/
def Takes (m : Nat) (p : Script α) : Prop :=
  ∀ a n, p.Gives (fun c v => c.answer = .ok v) a n → m ≤ n

namespace Takes

variable {m j : Nat} {p : Script α}

theorem bind {f : α → Script β} (h : Takes m p) (hf : ∀ a, Takes j (f a)) :
    Takes (m + j) (p >>= f) := by
  intro b n hb
  obtain ⟨a, i, i', ha, hb', rfl⟩ := gives_bind.mp hb
  exact Nat.add_le_add (h a i ha) (hf a b i' hb')

theorem zero : Takes 0 p := fun _ _ _ => Nat.zero_le _

theorem bind_left {f : α → Script β} (h : Takes m p) : Takes m (p >>= f) := h.bind fun _ => zero

theorem bind_right {f : α → Script β} (hf : ∀ a, Takes m (f a)) : Takes m (p >>= f) := by
  intro b n hb
  obtain ⟨a, i, j, -, hb', rfl⟩ := gives_bind.mp hb
  exact (hf a b j hb').trans (Nat.le_add_left j i)

theorem ask_bind {c : Call} {f : c.Value → Script β}
    (hf : ∀ v, c.answer = .ok v → Takes m (f v)) : Takes m (Script.ask c >>= f) := by
  intro b n hb
  obtain ⟨_, i, j, ⟨v, _, hv, ⟨rfl, -⟩, -⟩, hb', rfl⟩ := gives_bind.mp hb
  exact (hf _ hv b j hb').trans (Nat.le_add_left j i)

theorem since {h : t.Shorter s} {p : Script (Parsed t α)} (hp : Takes m p) : Takes m (since h p) :=
  bind hp fun _ _ _ _ => Nat.zero_le _

theorem mono (h : Takes m p) (hj : j ≤ m) : Takes j p := fun a n hn => hj.trans (h a n hn)

theorem ite {b : Prop} [Decidable b] {q : Script α} (hp : Takes m p) (hq : Takes m q) :
    Takes m (if b then p else q) := by
  split
  · exact hp
  · exact hq

theorem takeTo : Takes (s.rest.length - t.rest.length) (takeTo s t) := by
  rintro _ _ ⟨_, ⟨-, rfl⟩, rfl⟩
  rw [List.length_take]
  omega

theorem offer (q : Parsed s α) : Takes 1 (offer (some q)) := by
  have hlt : q.next.rest.length < s.rest.length := q.shorter
  exact (bind takeTo fun _ => zero).mono (by omega)

theorem offer_some {q : Parsed s α} {f : Option (Parsed s α) → Script β}
    (h : Takes m (f (some q))) : Takes (1 + m) (Script.offer (some q) >>= f) := by
  intro b n hb
  obtain ⟨a, i, j, ha, hb', rfl⟩ := gives_bind.mp hb
  have hi := offer q a i ha
  obtain ⟨_, ⟨rfl, rfl⟩, rfl⟩ := ha
  exact Nat.add_le_add hi (h b j hb')

theorem offer_bind {o : Option (Parsed s α)} {f : Option (Parsed s α) → Script β}
    (hnone : Takes 1 (f none)) : Takes 1 (Script.offer o >>= f) := by
  cases o with
  | none => exact hnone
  | some q => exact (offer q).bind_left

theorem demand (x : Attempt (Parsed s α)) : Takes 1 (demand x) := by
  cases x with
  | error e => exact fun _ _ h => h.elim
  | ok q =>
    have hlt : q.next.rest.length < s.rest.length := q.shorter
    exact (bind takeTo fun _ => zero).mono (by omega)

theorem ask {c : Call} (hc : ∀ v, c.answer = .ok v → (c.left v).length + m ≤ c.stream.rest.length) :
    Takes m (ask c) := by
  rintro v _ ⟨_, _, hv, ⟨rfl, rfl⟩, rfl⟩
  have hle := hc _ hv
  omega

/-- A routine that begins a phrase takes a token. -/
theorem ask_phrase {c : Call} (hc : c.origin = c.stream) (hone : c.shortest = 1) :
    Takes 1 (Script.ask c) :=
  ask fun v _ => hc ▸ hone ▸ c.left_length_add_shortest_le v

end Takes

end Script

theorem Call.left_length_add_le {c : Call} {m : Nat} (hc : c.script.Takes m) {v : c.Value}
    (hv : c.answer = .ok v) : (c.left v).length + m ≤ c.stream.rest.length := by
  have hm := hc v _ (c.gives hv fun _ _ _ _ h => h)
  have hle := c.left_length_le hv
  omega

open Script

/-- Parameters end with a parenthesis. -/
theorem takes_paramsTail (s₀ : Tokens) (params : List Param) (s : Tokens) (h : s.Shorter s₀) :
    Takes 1 (ask (.paramsTail s₀ params s h)) :=
  .ask fun _ => Call.left_length_add_le <|
    .ite (Takes.demand _).bind_left (.offer_bind (Takes.ask_phrase rfl rfl).bind_left)

/-- A declarator that begins with a name takes it. -/
theorem takes_declarator (allowAbstract : Bool) (s₀ s : Tokens) (h : s.Shorter s₀)
    (hname : s.peek.isIdentifier = true) : Takes 1 (ask (.declarator allowAbstract s₀ s h)) := by
  obtain ⟨name, ls, hs⟩ : ∃ name ls, s.Holds s.typeNames (.identifier name :: ls) := by
    obtain ⟨_ | ⟨⟨lexeme, span⟩, toks⟩, finish, previous, types⟩ := s
    · cases hname
    · cases lexeme with
      | identifier name => exact ⟨name, toks.map Token.lexeme, rfl, rfl⟩
      | _ => cases hname
  obtain ⟨t, ht, htake, -⟩ := hs.take?_eq_some (show Lexeme.identifier? _ = some name from rfl)
  have hpointers : s.pointers [] = ([], ⟨s, Nat.le_refl _⟩) := by
    rw [Tokens.pointers, hs.accept?_cons_eq_none rfl]
    rfl
  have hskip : s.skip .amp = (false, ⟨s, Nat.le_refl _⟩) := by
    rw [Tokens.skip, hs.accept?_cons_eq_none rfl]
  refine .ask fun v => Call.left_length_add_le <| .ask_bind fun v hv => ?_
  cases hpointers.symm.trans (Except.ok.inj hv)
  dsimp only
  generalize s.skip .amp = skipped at hskip
  subst hskip
  dsimp only
  rw [htake]
  exact .bind_right fun _ => (Takes.offer _).bind_left

end Runs

/-! ## What a routine does on a piece -/

open Tokens

/-- What is read of the piece is the same as what is read of the whole. -/
def Alike {s' s : Tokens} {α : Type} (k : Piece) (f : α → α) (v' : Parsed s' α) (v : Parsed s α) :
    Prop :=
  k.Holds v'.next v.next ∧ v.value = f v'.value

/-- The same for a phrase that may be empty, if the piece does not end with it. -/
def AlikeBefore {s' s : Tokens} {α : Type} (k : Piece) (f : α → α) (v' : Parsed s' α)
    (v : Parsed s α) : Prop :=
  k.Holds v'.next v.next ∧ (0 < v'.next.rest.length → v.value = f v'.value)

/-- The first call does on the piece what the second one does on the whole; what they give is then
related. -/
inductive Call.Cuts (k : Piece) : (c' c : Call) → (c'.Value → c.Value → Prop) → Prop
  | pathTail (parts : List String) {s₀' s₀ s' s : Tokens} {h' : s'.Shorter s₀'} {h : s.Shorter s₀}
    (hs₀ : k.Holds s₀' s₀) (hs : k.Holds s' s) :
    Cuts k (.pathTail s₀' parts s' h') (.pathTail s₀ parts s h)
      (Alike k id)
  | path {s' s : Tokens} (hs : k.Holds s' s) :
    Cuts k (.path s') (.path s) (Alike k id)
  | words (specifiers ws : List String) {s₀' s₀ s' s : Tokens}
    {h' : s'.rest.length ≤ s₀'.rest.length} {h : s.rest.length ≤ s₀.rest.length}
    {hw' : ws ≠ [] → s'.Shorter s₀'} {hw : ws ≠ [] → s.Shorter s₀}
    (hs₀ : k.Holds s₀' s₀) (hs : k.Holds s' s) :
    Cuts k (.words s₀' specifiers ws s' h' hw') (.words s₀ specifiers ws s h hw)
      (Alike k (TypeSpec.move k.move))
  | typeSpec {s' s : Tokens} (hs : k.Holds s' s) :
    Cuts k (.typeSpec s') (.typeSpec s) (Alike k (TypeSpec.move k.move))
  | stringTail (width : CharWidth) (text : String) {s₀' s₀ s' s : Tokens}
    {h' : s'.Shorter s₀'} {h : s.Shorter s₀}
    (hs₀ : k.Holds s₀' s₀) (hs : k.Holds s' s) :
    Cuts k (.stringTail s₀' width text s' h') (.stringTail s₀ width text s h)
      (Alike k id)
  | pointerWords (isConst : Bool) {s₀' s₀ s' s : Tokens} {h' : s'.Shorter s₀'} {h : s.Shorter s₀}
    (hs₀ : k.Holds s₀' s₀) (hs : k.Holds s' s) :
    Cuts k (.pointerWords s₀' isConst s' h') (.pointerWords s₀ isConst s h)
      (Alike k id)
  | pointers (marks : List Bool) {s' s : Tokens} (hs : k.Holds s' s) :
    Cuts k (.pointers marks s') (.pointers marks s) fun v' v => k.Holds v'.2.1 v.2.1 ∧ v.1 = v'.1
  | expression {s' s : Tokens} (hs : k.Holds s' s) :
    Cuts k (.expression s') (.expression s) (Alike k (Expr.move k.move))
  | commaTail {left' left : Expr} {s₀' s₀ s' s : Tokens} {h' : s'.Shorter s₀'} {h : s.Shorter s₀}
    (hleft : left = left'.move k.move) (hs₀ : k.Holds s₀' s₀) (hs : k.Holds s' s) :
    Cuts k (.commaTail s₀' left' s' h') (.commaTail s₀ left s h)
      (Alike k (Expr.move k.move))
  | assignment {s' s : Tokens} (hs : k.Holds s' s) :
    Cuts k (.assignment s') (.assignment s) (Alike k (Expr.move k.move))
  | conditional {s' s : Tokens} (hs : k.Holds s' s) :
    Cuts k (.conditional s') (.conditional s) (Alike k (Expr.move k.move))
  | disjunction {s' s : Tokens} (hs : k.Holds s' s) :
    Cuts k (.disjunction s') (.disjunction s) (Alike k (Expr.move k.move))
  | disjunctionTail {left' left : Expr} {s₀' s₀ s' s : Tokens}
    {h' : s'.Shorter s₀'} {h : s.Shorter s₀}
    (hleft : left = left'.move k.move) (hs₀ : k.Holds s₀' s₀) (hs : k.Holds s' s) :
    Cuts k (.disjunctionTail s₀' left' s' h') (.disjunctionTail s₀ left s h)
      (Alike k (Expr.move k.move))
  | conjunction {s' s : Tokens} (hs : k.Holds s' s) :
    Cuts k (.conjunction s') (.conjunction s) (Alike k (Expr.move k.move))
  | conjunctionTail {left' left : Expr} {s₀' s₀ s' s : Tokens}
    {h' : s'.Shorter s₀'} {h : s.Shorter s₀}
    (hleft : left = left'.move k.move) (hs₀ : k.Holds s₀' s₀) (hs : k.Holds s' s) :
    Cuts k (.conjunctionTail s₀' left' s' h') (.conjunctionTail s₀ left s h)
      (Alike k (Expr.move k.move))
  | binary (least : Nat) {s' s : Tokens} (hs : k.Holds s' s) :
    Cuts k (.binary least s') (.binary least s) (Alike k (Expr.move k.move))
  | binaryTail (least : Nat) {left' left : Expr} {s₀' s₀ s' s : Tokens}
    {h' : s'.Shorter s₀'} {h : s.Shorter s₀}
    (hleft : left = left'.move k.move) (hs₀ : k.Holds s₀' s₀) (hs : k.Holds s' s) :
    Cuts k (.binaryTail least s₀' left' s' h') (.binaryTail least s₀ left s h)
      (Alike k (Expr.move k.move))
  | unary {s' s : Tokens} (hs : k.Holds s' s) :
    Cuts k (.unary s') (.unary s) (Alike k (Expr.move k.move))
  | trailing {s' s : Tokens} (hs : k.Holds s' s) :
    Cuts k (.trailing s') (.trailing s) (Alike k (Expr.move k.move))
  | trailingTail {e' e : Expr} {s₀' s₀ s' s : Tokens} {h' : s'.Shorter s₀'} {h : s.Shorter s₀}
    (he : e = e'.move k.move) (hs₀ : k.Holds s₀' s₀) (hs : k.Holds s' s) :
    Cuts k (.trailingTail s₀' e' s' h') (.trailingTail s₀ e s h)
      (Alike k (Expr.move k.move))
  | argumentsTail {args' args : List Expr} {s₀' s₀ s' s : Tokens}
    {h' : s'.Shorter s₀'} {h : s.Shorter s₀}
    (hargs : args = args'.map (Expr.move k.move)) (hs₀ : k.Holds s₀' s₀) (hs : k.Holds s' s) :
    Cuts k (.argumentsTail s₀' args' s' h') (.argumentsTail s₀ args s h)
      (Alike k (List.map (Expr.move k.move)))
  | primary {s' s : Tokens} (hs : k.Holds s' s) :
    Cuts k (.primary s') (.primary s) (Alike k (Expr.move k.move))
  | initializer {s' s : Tokens} (hs : k.Holds s' s) :
    Cuts k (.initializer s') (.initializer s) (Alike k (Initializer.move k.move))
  | braceList {s' s : Tokens} (hs : k.Holds s' s) :
    Cuts k (.braceList s') (.braceList s)
      (Alike k (Prod.map (List.map (Initializer.move k.move)) k.move))
  | braceTail {items' items : List Initializer} {s₀' s₀ s' s : Tokens}
    {h' : s'.Shorter s₀'} {h : s.Shorter s₀}
    (hitems : items = items'.map (Initializer.move k.move))
    (hs₀ : k.Holds s₀' s₀) (hs : k.Holds s' s) :
    Cuts k (.braceTail s₀' items' s' h') (.braceTail s₀ items s h)
      (Alike k (Prod.map (List.map (Initializer.move k.move)) k.move))
  | typeName {s' s : Tokens} (hs : k.Holds s' s) :
    Cuts k (.typeName s') (.typeName s)
      (AlikeBefore k (Prod.map (TypeSpec.move k.move) (Declarator.move k.move)))
  | declarator (allowAbstract : Bool) {s₀' s₀ s' s : Tokens}
    {h' : s'.Shorter s₀'} {h : s.Shorter s₀}
    (hs₀ : k.Holds s₀' s₀) (hs : k.Holds s' s) :
    Cuts k (.declarator allowAbstract s₀' s' h') (.declarator allowAbstract s₀ s h)
      (AlikeBefore k (Declarator.move k.move))
  | suffixesTail (marks : List Bool) (reference : Bool) {base' base : DeclaratorBase}
    {suffixes' suffixes : List DeclaratorSuffix} {s₀' s₀ start' start s' s : Tokens}
    {h' : s'.Shorter s₀'} {h : s.Shorter s₀} (hbase : base = base'.move k.move)
    (hsuffixes : suffixes = suffixes'.map (DeclaratorSuffix.move k.move))
    (hs₀ : k.Holds s₀' s₀) (hstart : k.Holds start' start) (hs : k.Holds s' s)
    (hle : s'.rest.length ≤ start'.rest.length) :
    Cuts k (.suffixesTail s₀' start' marks reference base' suffixes' s' h')
      (.suffixesTail s₀ start marks reference base suffixes s h)
      (AlikeBefore k (Declarator.move k.move))
  | paramsTail {params' params : List Param} {s₀' s₀ s' s : Tokens}
    {h' : s'.Shorter s₀'} {h : s.Shorter s₀}
    (hparams : params = params'.map (Param.move k.move))
    (hs₀ : k.Holds s₀' s₀) (hs : k.Holds s' s) :
    Cuts k (.paramsTail s₀' params' s' h') (.paramsTail s₀ params s h)
      (Alike k (Prod.map (List.map (Param.move k.move)) id))
  | defaultArgument {s₀' s₀ s' s : Tokens} {h' : s'.Shorter s₀'} {h : s.Shorter s₀}
    (hs₀ : k.Holds s₀' s₀) (hs : k.Holds s' s) :
    Cuts k (.defaultArgument s₀' s' h') (.defaultArgument s₀ s h)
      (Alike k (Option.map (Expr.move k.move)))

namespace Call.Cuts

variable {k : Piece} {c' c : Call} {R : c'.Value → c.Value → Prop}

theorem stream (h : Call.Cuts k c' c R) : k.Holds c'.stream c.stream := by
  cases h <;> assumption

theorem next (h : Call.Cuts k c' c R) {v' : c'.Value} {v : c.Value} (hr : R v' v) :
    k.Holds (c'.next v') (c.next v) := by
  cases h <;> exact hr.1

end Call.Cuts

/-- What a call gives within the piece, it gives on the piece as well. -/
def Carries (k : Piece) (c : Call) (v : c.Value) : Prop :=
  c.answer = .ok v ∧ ∀ (c' : Call) (R : c'.Value → c.Value → Prop), Call.Cuts k c' c R →
    k.beyond.length ≤ (c.left v).length → ∃ v', c'.answer = .ok v' ∧ R v' v

namespace Script

variable {k : Piece} {α β α' β' : Type} {s' s t' t : Tokens}

/-- What the second script gives with at most `n` tokens taken, the first one gives as well; `Q`
relates the results and the number of tokens that are left. -/
def Follows (k : Piece) (n : Nat) (p' : Script α) (p : Script β) (Q : Nat → α → β → Prop) : Prop :=
  ∀ b m, p.Gives (Carries k) b m → m ≤ n → ∃ a, p'.run = .ok a ∧ Q (n - m) a b

namespace Follows

variable {n : Nat} {p' : Script α} {p : Script β} {Q : Nat → α → β → Prop}

theorem done {a : α} {b : β} (h : Q n a b) : Follows k n (pure a) (pure b) Q := by
  rintro _ _ ⟨rfl, rfl⟩ -
  exact ⟨a, rfl, h⟩

theorem bind {f' : α → Script α'} {f : β → Script β'} {Q : Nat → α' → β' → Prop}
    (h : Follows k n p' p fun m a b => Follows k m (f' a) (f b) Q) :
    Follows k n (p' >>= f') (p >>= f) Q := by
  intro b m hb hm
  obtain ⟨b₁, i, j, hb₁, hb₂, rfl⟩ := gives_bind.mp hb
  obtain ⟨a₁, ha₁, h⟩ := h b₁ i hb₁ (by omega)
  obtain ⟨a, ha, hq⟩ := h b j hb₂ (by omega)
  rw [Nat.sub_sub] at hq
  refine ⟨a, ?_, hq⟩
  rw [run_bind, ha₁]
  exact ha

theorem since {h' : t'.Shorter s'} {h : t.Shorter s} {p' : Script (Parsed t' α)}
    {p : Script (Parsed t β)} {Q : Nat → Parsed s' α → Parsed s β → Prop}
    (hp : Follows k n p' p fun m a b => Q m (Parsed.since h' a) (Parsed.since h b)) :
    Follows k n (since h' p') (since h p) Q :=
  bind fun b m hb hm => by
    obtain ⟨a, ha, hq⟩ := hp b m hb hm
    exact ⟨a, ha, done hq⟩

/-- A script that takes more tokens than there are gives nothing. -/
theorem of_takes {m : Nat} (h : Takes m p) (hn : n < m) : Follows k n p' p Q := by
  intro b j hb hj
  have hle := h b j (hb.mono fun _ _ hv => hv.1)
  omega

theorem ite {b' b : Prop} [Decidable b'] [Decidable b] {q' : Script α} {q : Script β}
    (hb : b' ↔ b) (hp : b → Follows k n p' p Q) (hq : ¬b → Follows k n q' q Q) :
    Follows k n (if b' then p' else q') (if b then p else q) Q := by
  by_cases h : b
  · rw [if_pos h, if_pos (hb.mpr h)]
    exact hp h
  · rw [if_neg h, if_neg fun h' => h (hb.mp h')]
    exact hq h

theorem takeTo (hs : k.Holds s' s) (hle : t.rest.length ≤ s.rest.length)
    {Q : Nat → Unit → Unit → Prop}
    (h : k.beyond.length ≤ t.rest.length → k.Holds t' t ∧ Q t'.rest.length () ()) :
    Follows k s'.rest.length (takeTo s' t') (takeTo s t) Q := by
  rintro _ _ ⟨_, ⟨rfl, rfl⟩, rfl⟩ hm
  have hlen := hs.length
  rw [List.length_take, Nat.add_zero, Nat.min_eq_left (Nat.sub_le _ _)] at hm ⊢
  obtain ⟨ht, hq⟩ := h (by omega)
  have hlen' := ht.length
  refine ⟨(), rfl, ?_⟩
  rwa [show s'.rest.length - (s.rest.length - t.rest.length) = t'.rest.length by omega]

theorem offer (hs : k.Holds s' s) {o' : Option (Parsed s' α)} {o : Option (Parsed s α)}
    (ho : k.Offers o' o) {Q : Nat → Option (Parsed s' α) → Option (Parsed s α) → Prop}
    (hnone : Q s'.rest.length none none)
    (hsome : ∀ a t' h' t h, k.Holds t' t → Q t'.rest.length (some ⟨a, t', h'⟩) (some ⟨a, t, h⟩)) :
    Follows k s'.rest.length (offer o') (offer o) Q := by
  cases ho with
  | none => exact done hnone
  | some a ht =>
    exact bind (takeTo hs (Nat.le_of_lt ‹_›) fun _ => ⟨ht, done (hsome _ _ _ _ _ ht)⟩)
  | beyond hlt =>
    rename_i q
    rintro _ _ ⟨_, ⟨rfl, rfl⟩, rfl⟩ hm
    have hlen := hs.length
    have hlt' : q.next.rest.length < s.rest.length := q.shorter
    rw [List.length_take, Nat.add_zero, Nat.min_eq_left (Nat.sub_le _ _)] at hm
    omega

theorem demand (hs : k.Holds s' s) {x' : Attempt (Parsed s' α)} {x : Attempt (Parsed s α)}
    (hx : k.Demands x' x) {Q : Nat → Parsed s' α → Parsed s α → Prop}
    (h : ∀ a t' h' t h, k.Holds t' t → Q t'.rest.length ⟨a, t', h'⟩ ⟨a, t, h⟩) :
    Follows k s'.rest.length (demand x') (demand x) Q := by
  cases x with
  | error e => exact fun _ _ h => h.elim
  | ok =>
    rintro q _ ⟨_, ⟨rfl, rfl⟩, rfl⟩ hm
    have hlen := hs.length
    have hlt : q.next.rest.length < s.rest.length := q.shorter
    rw [List.length_take, Nat.add_zero, Nat.min_eq_left (Nat.sub_le _ _)] at hm ⊢
    obtain ⟨⟨a', t', h'⟩, rfl, ha, ht⟩ := hx q rfl (by omega)
    obtain ⟨a, t, hts⟩ := q
    cases ha
    have hlen' : t.rest.length = t'.rest.length + k.beyond.length := ht.length
    have hlt : t.rest.length < s.rest.length := hts
    refine ⟨_, rfl, ?_⟩
    rw [show s'.rest.length - (s.rest.length - t.rest.length) = t'.rest.length by omega]
    exact h _ _ _ _ _ ht

theorem fail {e : ParseError} : Follows k n p' (.fail e : Script β) Q := fun _ _ h => h.elim

theorem demand_fail {what : String} {Q : Nat → α → Parsed s β → Prop} :
    Follows k n p' (Script.demand (t.fail what : Attempt (Parsed s β))) Q := fun _ _ h => h.elim

theorem ask_within {c' c : Call} {R : c'.Value → c.Value → Prop} (hc : Call.Cuts k c' c R)
    {Q : Nat → c'.Value → c.Value → Prop}
    (h : ∀ v' v, R v' v → (c'.next v').rest.length ≤ c'.stream.rest.length →
      Q (c'.next v').rest.length v' v) :
    Follows k c'.stream.rest.length (ask c') (ask c) Q := by
  rintro v _ ⟨_, _, ⟨hv, hcarries⟩, ⟨rfl, rfl⟩, rfl⟩ hm
  have hle : (c.next v).rest.length ≤ c.stream.rest.length := c.left_length_le hv
  have hlen := hc.stream.length
  obtain ⟨v', hv', hr⟩ := hcarries c' R hc (by
    change k.beyond.length ≤ (c.next v).rest.length
    change c.stream.rest.length - (c.next v).rest.length + 0 ≤ _ at hm
    omega)
  have hlen' := (hc.next hr).length
  refine ⟨v', ?_, ?_⟩
  · change (c'.answer.bind fun v => .ok v) = _
    rw [hv']
    rfl
  · rw [show c'.stream.rest.length - (c.stream.rest.length - (c.next v).rest.length + 0) =
      (c'.next v').rest.length by omega]
    exact h v' v hr (hc.stream.length_le (hc.next hr) hle)

theorem ask {c' c : Call} {R : c'.Value → c.Value → Prop} (hc : Call.Cuts k c' c R)
    {Q : Nat → c'.Value → c.Value → Prop}
    (h : ∀ v' v, R v' v → Q (c'.next v').rest.length v' v) :
    Follows k c'.stream.rest.length (Script.ask c') (Script.ask c) Q :=
  ask_within hc fun v' v hr _ => h v' v hr

end Follows

/-- What a script sees makes a difference only if the script goes on to take it. -/
theorem Follows.sees (hs : k.Holds s' s) (x : Symbol) {p' q' : Script α} {p q : Script β}
    {Q : Nat → α → β → Prop} (hp : Takes 1 p) (hq : Takes 1 q)
    (hp' : Follows k s'.rest.length p' p Q) (hq' : Follows k s'.rest.length q' q Q) :
    Follows k s'.rest.length (if s'.sees x then p' else q') (if s.sees x then p else q) Q := by
  by_cases hne : 0 < s'.rest.length
  · exact .ite (by rw [hs.sees hne]) (fun _ => hp') fun _ => hq'
  · exact .of_takes (.ite hp hq) (by omega)

end Script

end Stepwise.Parse
