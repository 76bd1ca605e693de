import Stepwise.Proofs.Phrases.Slices
import Stepwise.Proofs.Phrases.Statements
import Stepwise.Session.Debugger

/-! # Node spans are node texts

The nodes of a parsed program nest as their tokens do. The text at the span of an expression has
the tokens of the expression, and parsing these gives the expression again.
-/

namespace Stepwise

/-- The tokens are not empty, disjoint and in order. -/
structure Token.Ordered (ts : List Token) : Prop where
  nonempty : ∀ t ∈ ts, t.span.start < t.span.stop
  pairwise : ts.Pairwise fun s t => s.span.stop ≤ t.span.start

namespace Token.Ordered

variable {ts us : List Token} {t u : Token}

theorem sublist (h : Ordered ts) (hsub : us.Sublist ts) : Ordered us :=
  ⟨fun t ht => h.nonempty t (hsub.subset ht), h.pairwise.sublist hsub⟩

theorem start_le (h : Ordered ts) (ht : t ∈ ts.head?) (hu : u ∈ ts) :
    t.span.start ≤ u.span.start := by
  obtain ⟨us, rfl⟩ := List.head?_eq_some_iff.mp ht
  obtain rfl | hu := List.mem_cons.mp hu
  · exact Nat.le_refl _
  · exact (Nat.le_of_lt (h.nonempty t List.mem_cons_self)).trans
      (List.rel_of_pairwise_cons h.pairwise hu)

theorem le_stop (h : Ordered ts) (ht : t ∈ ts.getLast?) (hu : u ∈ ts) :
    u.span.stop ≤ t.span.stop := by
  obtain ⟨us, rfl⟩ := List.getLast?_eq_some_iff.mp ht
  obtain hu | hu := List.mem_append.mp hu
  · have hle := (List.pairwise_append.mp h.pairwise).2.2 u hu t (List.mem_singleton_self t)
    exact hle.trans (Nat.le_of_lt (h.nonempty t (List.mem_append_right _ (.head _))))
  · rw [List.mem_singleton.mp hu]

end Token.Ordered

namespace Parse

open Tokens

variable {root : Call} {s t s' t' : Tokens} {m n : Subtree}

/-- The node has the tokens from `s` up to `t`, and its parts lie among these. -/
structure Lies (root : Call) (s : Tokens) (n : Subtree) (t : Tokens) : Prop where
  known : Known root s
  reaches : s.Reaches t
  shorter : t.Shorter s
  span : n.span = s.spanTo t
  reparses : ∀ e, n = .expr e → Reparses s e t
  parts : ∃ parts, n.Arranges parts ∧ Laid root s.rest.length parts t.rest.length

theorem Laid.lies {a b : Nat} {ns : List Subtree} (h : Laid root a ns b) : ∀ n ∈ ns, ∃ s t,
    Lies root s n t ∧ s.rest.length ≤ a ∧ b ≤ t.rest.length := by
  induction h with
  | nil => exact List.forall_mem_nil _
  | cons hle hknown hreaches hshorter hspan hexpr harranges hparts hrest _ ih =>
    refine List.forall_mem_cons.mpr ⟨⟨_, _, ⟨hknown, hreaches, hshorter, hspan, hexpr, _, harranges,
      hparts⟩, hle, hrest.le⟩, fun m hm => ?_⟩
    obtain ⟨s, t, hlies, hs, ht⟩ := ih m hm
    exact ⟨s, t, hlies, hs.trans ((Nat.le_of_lt hshorter).trans hle), ht⟩

theorem Laid.pairwise {a b : Nat} {ns : List Subtree} (h : Laid root a ns b) :
    ns.Pairwise fun m n => ∃ s t s' t', Lies root s m t ∧ Lies root s' n t' ∧
      s'.rest.length ≤ t.rest.length := by
  induction h with
  | nil => exact .nil
  | cons hle hknown hreaches hshorter hspan hexpr harranges hparts hrest _ ih =>
    refine .cons (fun m hm => ?_) ih
    obtain ⟨s, t, hlies, hs, -⟩ := hrest.lies m hm
    exact ⟨_, _, s, t, ⟨hknown, hreaches, hshorter, hspan, hexpr, _, harranges, hparts⟩, hlies, hs⟩

theorem Known.suffix (h : Known root s) : s.rest <:+ root.stream.rest := by
  obtain ⟨c, hc, rfl⟩ := h
  exact Call.suffix_of_reaches hc

namespace Lies

variable (hordered : Token.Ordered root.stream.rest)

theorem suffix (h : Lies root s n t) : t.rest <:+ root.stream.rest :=
  h.reaches.suffix.trans h.known.suffix

include hordered in
/-- A node begins with the first one of its tokens and ends with the last one. -/
theorem exists_tokens (h : Lies root s n t) : ∃ ts first last, s.rest = ts ++ t.rest ∧
    first ∈ ts.head? ∧ last ∈ ts.getLast? ∧
    n.span = ⟨first.span.start, last.span.stop, first.span.line, first.span.column⟩ := by
  obtain ⟨ts, hrest : s.rest = ts ++ t.rest, hprevious : t.previous = _⟩ := h.reaches
  have hne : ts ≠ [] := by
    rintro rfl
    exact absurd h.shorter (by rw [Shorter, hrest]; exact Nat.lt_irrefl _)
  have hfirst := List.head?_eq_some_head hne
  have hlast := List.getLast?_eq_some_getLast hne
  have hcurrent : s.current = (ts.head hne).span := by
    rw [Tokens.current, hrest, List.head?_append, hfirst]
    rfl
  have hle : (ts.head hne).span.stop ≤ (ts.getLast hne).span.stop :=
    ((hordered.sublist h.known.suffix.sublist).sublist
      (hrest ▸ List.sublist_append_left _ _)).le_stop hlast (List.head_mem hne)
  refine ⟨ts, _, _, hrest, hfirst, hlast, ?_⟩
  rw [h.span, spanTo, hcurrent, hprevious, Token.lastSpan, hlast, Span.through]
  simp only [Option.map_some, Option.getD_some, Nat.max_eq_right hle]

include hordered in
theorem nonempty (h : Lies root s n t) : n.span.start < n.span.stop := by
  obtain ⟨ts, first, last, hrest, hfirst, hlast, hspan⟩ := h.exists_tokens hordered
  have hts := (hordered.sublist h.known.suffix.sublist).sublist
    (hrest ▸ List.sublist_append_left ts t.rest)
  have hmem := List.mem_of_getLast? hlast
  have hle := hts.start_le hfirst hmem
  have hlt := hts.nonempty last hmem
  rw [hspan]
  exact Nat.lt_of_le_of_lt hle hlt

include hordered in
/-- A node that begins no sooner than another one ends comes after it. -/
theorem before (hm : Lies root s m t) (hn : Lies root s' n t')
    (hle : s'.rest.length ≤ t.rest.length) : m.Before n := by
  obtain ⟨ts, _, last, hrest, -, hlast, hspan⟩ := hm.exists_tokens hordered
  obtain ⟨us, first, _, hrest', hfirst, -, hspan'⟩ := hn.exists_tokens hordered
  have hfirst : first ∈ t.rest := by
    refine (List.suffix_of_suffix_length_le hn.known.suffix hm.suffix hle).subset ?_
    rw [hrest']
    exact List.mem_append_left _ (List.mem_of_head? hfirst)
  have hpairwise := (hordered.sublist hm.known.suffix.sublist).pairwise
  rw [hrest] at hpairwise
  rw [Subtree.Before, hspan, hspan']
  exact (List.pairwise_append.mp hpairwise).2.2 _ (List.mem_of_getLast? hlast) _ hfirst

include hordered in
/-- A node among the tokens of another one lies inside it. -/
theorem inside (hn : Lies root s n t) (hm : Lies root s' m t')
    (hle : s'.rest.length ≤ s.rest.length) (hle' : t.rest.length ≤ t'.rest.length) :
    n.span.start ≤ m.span.start ∧ m.span.stop ≤ n.span.stop := by
  obtain ⟨ts, first, last, hrest, hfirst, hlast, hspan⟩ := hn.exists_tokens hordered
  obtain ⟨us, first', last', hrest', hfirst', hlast', hspan'⟩ := hm.exists_tokens hordered
  obtain ⟨xs, hxs⟩ := List.suffix_of_suffix_length_le hm.known.suffix hn.known.suffix hle
  obtain ⟨ys, hys⟩ := List.suffix_of_suffix_length_le hn.suffix hm.suffix hle'
  have hts : ts = xs ++ (us ++ ys) := by
    rw [← List.append_left_inj t.rest, ← hrest, ← hxs, hrest', ← hys]
    simp only [List.append_assoc]
  have hordered' := (hordered.sublist hn.known.suffix.sublist).sublist
    (hrest ▸ List.sublist_append_left ts t.rest)
  have hmem {x : Token} (hx : x ∈ us) : x ∈ ts := by
    rw [hts]
    exact List.mem_append_right _ (List.mem_append_left _ hx)
  rw [hspan, hspan']
  exact ⟨hordered'.start_le hfirst (hmem (List.mem_of_head? hfirst')),
    hordered'.le_stop hlast (hmem (List.mem_of_getLast? hlast'))⟩

theorem lies_of_mem (h : Lies root s n t) (hm : m ∈ n.groups.flatten) : ∃ s' t',
    Lies root s' m t' ∧ s'.rest.length ≤ s.rest.length ∧ t.rest.length ≤ t'.rest.length := by
  obtain ⟨parts, harranges, hparts⟩ := h.parts
  exact hparts.lies m (harranges.perm.symm.subset hm)

include hordered in
theorem nests (h : Lies root s n t) : n.Nests := by
  obtain ⟨parts, harranges, hparts⟩ := h.parts
  have hpairwise : parts.Pairwise Subtree.Before :=
    hparts.pairwise.imp fun ⟨_, _, _, _, hm, hn, hle⟩ => hm.before hordered hn hle
  refine ⟨h.nonempty hordered, fun m hm => ?_, fun g hg => ?_, ?_⟩
  · obtain ⟨s', t', hm, hs, ht⟩ := h.lies_of_mem hm
    exact h.inside hordered hm hs ht
  · exact hpairwise.sublist (harranges.sublist g hg)
  · exact (harranges.perm.pairwise_iff fun h => h.symm).mp (hpairwise.imp .inl)

end Lies

/-- Where the text of an expression begins, `types` are the names that parsing the whole text knows
as types. -/
def ReadsAt (source : String) (offset : Nat) (types : List String) : Prop :=
  ∃ tokens c, (scan source).tokens = .ok tokens ∧
    Relation.ReflTransGen Call.Makes (.program (.ofList (scan source).includes tokens)) c ∧
    c.stream.current.start = offset ∧ c.stream.typeNames = types

end Parse

/-- The tokens of the text, parsed as an expression with `types` known as types, are those of one
expression, and this is `e` if it stands where `e` does. -/
def Expr.HasText (e : Expr) (types : List String) (text : String) : Prop :=
  ∃ tokens p, (scan text).tokens = .ok tokens ∧
    Parse.expression { Tokens.ofList [] tokens with typeNames := types } = .ok p ∧
    p.next.rest = [] ∧ p.value.move e.span.shift = e

namespace Parse

open Tokens

variable {root : Call} {s t : Tokens} {e : Expr} {source : String} {mark : Token}

/-- The text of an expression is where its first token is, and has its tokens. -/
theorem Lies.exists_scan (h : Lies root s (.expr e) t) (hordered : Token.Ordered root.stream.rest)
    (hscan : (scan source).tokens = .ok (root.stream.rest ++ [mark]))
    (hbody : ∀ t ∈ root.stream.rest, t.lexeme ≠ .endOfFile) :
    ∃ ts last, (scan (String.ofList (e.span.slice source.toList))).tokens = .ok (ts ++ [last]) ∧
      s.rest = ts.map (Token.move e.span.shift) ++ t.rest := by
  obtain ⟨ts, first, last, hrest, hfirst, hlast, hspan⟩ := h.exists_tokens hordered
  obtain ⟨us, rfl⟩ := List.head?_eq_some_iff.mp hfirst
  obtain ⟨before, hbefore⟩ := h.known.suffix
  have hmem {x : Token} (hx : x ∈ first :: us) : x ∈ root.stream.rest := by
    rw [← hbefore, hrest]
    exact List.mem_append_right _ (List.mem_append_left _ hx)
  have hfrom : (Scan.from (.ofText source)).tokens =
      .ok (before ++ (first :: us ++ (t.rest ++ [mark]))) := by
    refine hscan.trans ?_
    rw [← hbefore, hrest]
    simp only [List.append_assoc]
  obtain ⟨i, hi, hfrom⟩ := Scan.exists_from hfrom (by simp)
  obtain ⟨j, hj, hfrom, hposition⟩ := Scan.exists_from_start hfrom (hbody _ (hmem (.head _)))
  rw [Reader.drop_drop] at hfrom hposition
  rw [Reader.rest_drop, List.length_drop] at hj
  have hi : i ≤ source.toList.length := hi
  have hj : j ≤ source.toList.length - i := hj
  have hbase : ((Reader.ofText source).drop (i + j)).position =
      ⟨e.span.start, e.span.line, e.span.column⟩ := by
    rw [hposition, show e.span = _ from hspan]
  have hoffset : e.span.start = i + j := by
    have hstart := congrArg Position.offset hbase
    rw [Reader.drop, Position.after_offset, List.length_take_of_le (by
      change i + j ≤ source.toList.length
      omega)] at hstart
    exact hstart.symm.trans (Nat.zero_add _)
  obtain ⟨m, -, hstop, -, front, final, hfront, hmap⟩ :=
    Scan.from_take hbase hfrom (fun t ht => hbody t (hmem ht)) (Position.after_nil _).symm
  have hstop : e.span.stop = e.span.start + m := by
    rw [show e.span = _ from hspan]
    exact (hstop last hlast).trans (by rw [hbase, show e.span = _ from hspan])
  refine ⟨front, final, ?_, by rw [hrest, hmap]⟩
  rw [scan, Reader.ofText, String.toList_ofList, Span.slice, hstop, Nat.add_sub_cancel_left,
    hoffset]
  exact hfront

theorem Lies.hasText (h : Lies root s (.expr e) t) (hordered : Token.Ordered root.stream.rest)
    (hscan : (scan source).tokens = .ok (root.stream.rest ++ [mark]))
    (hbody : ∀ t ∈ root.stream.rest, t.lexeme ≠ .endOfFile) :
    e.HasText s.typeNames (String.ofList (e.span.slice source.toList)) := by
  obtain ⟨ts, last, htokens, hrest⟩ := h.exists_scan hordered hscan hbody
  let k : Piece := ⟨e.span.shift, t.rest, ts.length, e.span.shift_through⟩
  have hpiece : (Tokens.ofList [] (ts ++ [last])).rest = ts := List.dropLast_concat
  have hholds : k.Holds { Tokens.ofList [] (ts ++ [last]) with typeNames := s.typeNames } s := by
    refine ⟨?_, rfl, ?_, fun hlt => absurd hlt ?_⟩
    · rw [hpiece]
      exact hrest
    · rw [hpiece]
    · rw [hpiece]
      exact Nat.lt_irrefl _
  obtain ⟨p, hp, hnil, he⟩ := h.reparses e rfl k _ hholds rfl
  exact ⟨_, p, htokens, hp, hnil, he.symm⟩

end Parse

namespace Program

open Parse

variable {source : String} {program : Program}

theorem exists_of_parse (h : Program.parse source = .ok program) :
    ∃ body mark, (scan source).tokens = .ok (body ++ [mark]) ∧
      Parse.items (.ofList (scan source).includes (body ++ [mark])) = .ok program.items ∧
      Token.Ordered body ∧ ∀ t ∈ body, t.lexeme ≠ .endOfFile ∧
        t.span.stop ≤ source.toList.length := by
  rw [Program.parse] at h
  cases htokens : (scan source).tokens with
  | error e => simp only [htokens] at h; cases h
  | ok tokens =>
    simp only [htokens] at h
    have hfollow := scan_follow htokens
    obtain ⟨body, mark, rfl, -, hmark, -, hbody⟩ := hfollow.exists_last
    have hpairwise := List.pairwise_append.mp hfollow.pairwise
    refine ⟨body, mark, rfl, ?_, ⟨fun t ht => (hbody t ht).2, hpairwise.1⟩, fun t ht =>
      ⟨(hbody t ht).1, hmark ▸ hpairwise.2.2 t ht mark (List.mem_singleton_self mark)⟩⟩
    cases hitems : Parse.items (.ofList (scan source).includes (body ++ [mark])) with
    | error e => rw [hitems] at h; cases h
    | ok items => rw [hitems] at h; cases h; rfl

theorem lies_of_contains {s : Tokens} (hitems : Parse.items s = .ok program.items) {n : Subtree}
    (hn : program.Contains n) : ∃ s' t, Lies (.program s) s' n t := by
  induction hn with
  | item hmem =>
    have hlaid : Laid (.program s) s.rest.length (program.items.map .stmt) 0 :=
      lays (c := .program s) .refl hitems trivial
    obtain ⟨s', t, h, -, -⟩ := hlaid.lies _ (List.mem_map_of_mem hmem)
    exact ⟨s', t, h⟩
  | part _ hm ih =>
    obtain ⟨s', t, h⟩ := ih
    obtain ⟨s'', t', h', -, -⟩ := h.lies_of_mem hm
    exact ⟨s'', t', h'⟩

/-- **Node spans are node texts.** The items of a program are in order. Its nodes lie in the text and
nest: none is empty, the parts of a node lie inside it, and siblings are disjoint and in order. The
debugger shows the text at the span of the node that comes next. The text of an expression, scanned
on its own and parsed as an expression with the types known there, is read to its end and gives
this expression, with its spans moved to where the text begins. -/
theorem nodes_have_text (h : Program.parse source = .ok program) :
    (program.items.Pairwise fun a b => (Subtree.stmt a).Before (.stmt b)) ∧
    (∀ n, program.Contains n → n.Nests ∧ n.span.stop ≤ source.toList.length ∧
      ∀ d : Debugger, d.source = source → d.run.cursor = some n.node →
        d.nodeText? = some (String.ofList (n.span.slice source.toList))) ∧
    ∀ e, program.Contains (.expr e) → ∃ types, ReadsAt source e.span.start types ∧
      e.HasText types (String.ofList (e.span.slice source.toList)) := by
  obtain ⟨body, mark, htokens, hitems, hordered, hbody⟩ := exists_of_parse h
  let root : Call := .program (.ofList (scan source).includes (body ++ [mark]))
  have hroot : root.stream.rest = body := List.dropLast_concat
  rw [← hroot] at hordered hbody
  have hlaid : Laid root root.stream.rest.length (program.items.map .stmt) 0 :=
    lays (c := root) .refl hitems trivial
  refine ⟨?_, fun n hn => ?_, fun e he => ?_⟩
  · refine (List.pairwise_map.mp hlaid.pairwise).imp ?_
    rintro a b ⟨_, _, _, _, ha, hb, hle⟩
    exact ha.before hordered hb hle
  · obtain ⟨s, t, hn⟩ := lies_of_contains hitems hn
    refine ⟨hn.nests hordered, ?_, ?_⟩
    · obtain ⟨ts, first, last, hrest, -, hlast, hspan⟩ := hn.exists_tokens hordered
      rw [hspan]
      refine (hbody last (hn.known.suffix.subset ?_)).2
      rw [hrest]
      exact List.mem_append_left _ (List.mem_of_getLast? hlast)
    · rintro d rfl hcursor
      rw [Debugger.nodeText?, hcursor]
      cases n <;> rfl
  · obtain ⟨s, t, hlies⟩ := lies_of_contains hitems he
    obtain ⟨ts, first, last, hrest, hfirst, -, hspan⟩ := hlies.exists_tokens hordered
    obtain ⟨c, hc, rfl⟩ := hlies.known
    refine ⟨c.stream.typeNames, ⟨_, c, htokens, hc, ?_, rfl⟩,
      hlies.hasText hordered (hroot.symm ▸ htokens) fun t ht => (hbody t ht).1⟩
    rw [show e.span = _ from hspan, Tokens.current, hrest, List.head?_append, hfirst]
    rfl

set_option maxRecDepth 2000 in
/-- The span of an operation takes in the parentheses around its left operand, which are no part of
the operand. -/
theorem nodes_have_text_parens : ∃ program e,
    Program.parse "int x=(y)+z;" = .ok program ∧ program.Contains (.expr e) ∧
    e = .binary ⟨6, 11, 1, 7⟩ .add (.identifier ⟨7, 8, 1, 8⟩ "y") (.identifier ⟨10, 11, 1, 11⟩ "z") ∧
    ∃ types, ReadsAt "int x=(y)+z;" 6 types ∧ e.HasText types "(y)+z" := by
  let e : Expr :=
    .binary ⟨6, 11, 1, 7⟩ .add (.identifier ⟨7, 8, 1, 8⟩ "y") (.identifier ⟨10, 11, 1, 11⟩ "z")
  let item : Stmt := .declaration ⟨0, 12, 1, 1⟩ ⟨⟨[], ["int"], ⟨0, 3, 1, 1⟩⟩,
    [⟨.mk ⟨4, 5, 1, 5⟩ [] false (.named "x") [], some (.expr e)⟩]⟩
  have hparse : Program.parse "int x=(y)+z;" = .ok ⟨[], [item]⟩ := by cbv
  have he : Program.Contains ⟨[], [item]⟩ (.expr e) := .part (.item (.head _)) (.head _)
  exact ⟨_, e, hparse, he, rfl, (nodes_have_text hparse).2.2 e he⟩

end Program

end Stepwise
