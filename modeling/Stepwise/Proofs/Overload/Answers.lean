import Stepwise.Proofs.Overload.Spelling
import Stepwise.Proofs.Overload.Tables
import Mathlib.Data.List.MinMax

/-! # Remembered answers

A table files its answers under the texts of calls. The text of a call gives its
signature back as long as the calls of a table keep to one side of the kinds that are
spelled with `long`, so no call is answered by what was remembered for another one, and
over every history each answer is the resolution over the functions declared so far.
-/

namespace Stepwise

section

variable {doubled : Bool} {c : Char}

theorem SigToken.notMem_text_of_fixed : ∀ c ∈ ['<', '>'], ∀ doubled, ∀ t ∈ fixed doubled,
    c ∉ t.text.toList :=
  List.forall_iff_forall_mem.mp (by decide +kernel)

/-- The marks around a template argument are in no legible token. -/
theorem SigToken.notMem_text {t : SigToken} (h : t.Legible doubled) (hc : c ∈ ['<', '>']) :
    c ∉ t.text.toList := by
  rcases h with h | ⟨text, rfl, h⟩
  · exact notMem_text_of_fixed c hc doubled t h
  · have hall : ∀ c ∈ ['<', '>'], Lexeme.isWordPart c = false :=
      List.forall_iff_forall_mem.mp (by decide)
    exact Lexeme.notMem_of_isWord (Lexeme.isWord_of_isName h) (hall c hc)

theorem Signature.ne_blank_of_mem (hc : c ∈ ['<', '>']) : c ≠ ' ' := by
  rintro rfl
  simp at hc

theorem Signature.notMem_text {s : Signature} (h : ∀ t ∈ s, c ∉ t.text.toList) (hc : c ≠ ' ') :
    c ∉ s.text.toList := by
  induction s with
  | nil => simp [text]
  | cons t s ih =>
    simp only [List.forall_mem_cons] at h
    have ih := ih h.2
    cases s with
    | nil => simpa [text] using h.1
    | cons u s =>
      simp only [text, String.toList_intercalate, List.map_cons, List.intercalate_cons_cons,
        List.mem_append, not_or] at ih ⊢
      exact ⟨⟨h.1, by simpa using hc⟩, ih⟩

theorem Signature.notMem_text_ofCall {args : List ArgSig} (h : LegibleArgs doubled args)
    (hc : c ∈ ['<', '>']) : c ∉ (ofCall args).text.toList := by
  have hhead : ∀ c ∈ ['<', '>'], ∀ t ∈ head, c ∉ t.text.toList :=
    List.forall_iff_forall_mem.mp (by decide)
  refine notMem_text ?_ (ne_blank_of_mem hc)
  rw [ofCall_eq]
  exact List.forall_mem_append.mpr
    ⟨hhead c hc, fun t ht => SigToken.notMem_text ((readable_ofArgs h).legible t ht) hc⟩

theorem Signature.notMem_text_ofType {t : Ty} (h : t.legible doubled = true)
    (hc : c ∈ ['<', '>']) : c ∉ (ofType t).text.toList :=
  notMem_text (fun u hu => SigToken.notMem_text (legible_ofType t h u hu) hc) (ne_blank_of_mem hc)

end

open Signature (LegibleArgs)

namespace OverloadSet

open Signature

variable {doubled : Bool}

theorem callText_concat (call : Signature) (ts : List Signature) (t : Signature) :
    callText call (ts ++ [t]) = callText call ts ++ " <" ++ t.text ++ ">" := by
  rw [callText, List.foldl_append]
  rfl

/-- A template argument without the marks around it, and what comes before it. -/
theorem sides_eq_of_marked {a b s u : String} (hs : '<' ∉ s.toList) (hu : '<' ∉ u.toList)
    (h : a ++ " <" ++ s ++ ">" = b ++ " <" ++ u ++ ">") : a = b ∧ s = u := by
  have hl : s.toList.reverse ++ '<' :: (' ' :: a.toList.reverse) =
      u.toList.reverse ++ '<' :: (' ' :: b.toList.reverse) := by
    have hr := congrArg (fun text => text.toList.reverse) h
    simpa using hr
  have hsr : s.toList.reverse.splitOn '<' = [s.toList.reverse] :=
    List.splitOn_eq_singleton (by simpa using hs)
  have hur : u.toList.reverse.splitOn '<' = [u.toList.reverse] :=
    List.splitOn_eq_singleton (by simpa using hu)
  have hsplit := congrArg (List.splitOn '<') hl
  rw [List.splitOn_append_cons_self, List.splitOn_append_cons_self, hsr, hur,
    List.singleton_append, List.singleton_append, List.cons.injEq] at hsplit
  rw [hsplit.1, List.append_cancel_left_eq, List.cons.injEq, List.cons.injEq] at hl
  rw [List.reverse_inj, String.toList_inj] at hl hsplit
  exact ⟨hl.2.2, hsplit.1⟩

theorem text_ne_callText_concat {args : List ArgSig} (h : LegibleArgs doubled args)
    (call : Signature) (ts : List Signature) (t : Signature) :
    (ofCall args).text ≠ callText call (ts ++ [t]) := by
  intro heq
  refine notMem_text_ofCall h (c := '<') (by decide) ?_
  rw [heq, callText_concat]
  simp

/-- The text of a call with template arguments gives both back. -/
theorem eq_of_callText_eq {args args' : List ArgSig} {templates templates' : List Ty}
    (ha : LegibleArgs doubled args) (ha' : LegibleArgs doubled args')
    (ht : ∀ t ∈ templates, t.legible doubled = true)
    (ht' : ∀ t ∈ templates', t.legible doubled = true)
    (h : callText (ofCall args) (templates.map ofType) =
      callText (ofCall args') (templates'.map ofType)) :
    ofCall args = ofCall args' ∧ templates.map ofType = templates'.map ofType := by
  induction templates using List.reverseRecOn generalizing templates' with
  | nil =>
    rcases templates'.eq_nil_or_concat' with rfl | ⟨us, u, rfl⟩
    · exact ⟨ofCall_eq_of_text ha ha' h, rfl⟩
    · rw [List.map_append] at h
      exact absurd h (text_ne_callText_concat ha _ _ _)
  | append_singleton ts t ih =>
    rcases templates'.eq_nil_or_concat' with rfl | ⟨us, u, rfl⟩
    · rw [List.map_append] at h
      exact absurd h.symm (text_ne_callText_concat ha' _ _ _)
    · simp only [List.forall_mem_append, List.forall_mem_singleton] at ht ht'
      simp only [List.map_append, List.map_singleton, callText_concat] at h ⊢
      obtain ⟨hts, htu⟩ := sides_eq_of_marked (notMem_text_ofType ht.2 (by decide))
        (notMem_text_ofType ht'.2 (by decide)) h
      obtain ⟨hcall, hmap⟩ := ih ht.1 ht'.1 hts
      have hlast := eq_of_text_eq (readable_ofType ht.2) (readable_ofType ht'.2)
        (ofType_ne_nil t) (ofType_ne_nil u) htu
      exact ⟨hcall, by rw [hmap, hlast]⟩

end OverloadSet

section Resolution

variable (m : Matcher) (call : Signature) (templates : List Signature) (os : List Overload)

/-- How an overload with enough template slots accepts a call. -/
def Overload.match? (o : Overload) : Option FunctionMatch :=
  if templates.length ≤ o.templateSlots then
    (m.matchFunction call o.signature templates).map fun actions => ⟨o.id, o.type, actions⟩
  else none

/-- The overloads that accept a call with the fewest casts, in the order of their declaration. -/
def tied : List Overload :=
  os.filter fun o => (o.match? m call templates).any fun f =>
    os.all fun o' => (o'.match? m call templates).all fun f' => f.casts ≤ f'.casts

/-- What a call of `name` is answered over some overloads. -/
inductive Resolution (name : String) : Except NameFault (Option FunctionMatch) → Prop
  | none (h : ∀ o ∈ os, o.match? m call templates = none) : Resolution name (.ok none)
  | only {o : Overload} {f : FunctionMatch} (ho : tied m call templates os = [o])
      (hf : o.match? m call templates = some f) : Resolution name (.ok (some f))
  | several (h : 2 ≤ (tied m call templates os).length) :
      Resolution name
        (.error (.ambiguous name ((tied m call templates os).map fun o => o.signature.text)))

variable {m call templates os} {name : String}

open OverloadSet (cheapest)

theorem mem_tied {o : Overload} :
    o ∈ tied m call templates os ↔ o ∈ os ∧ ∃ f, o.match? m call templates = some f ∧
      ∀ o' ∈ os, ∀ f', o'.match? m call templates = some f' → f.casts ≤ f'.casts := by
  simp only [tied, List.mem_filter, Option.any_eq_true, List.all_eq_true, Option.all_eq_true,
    decide_eq_true_eq]

theorem Resolution.unique {a b : Except NameFault (Option FunctionMatch)}
    (ha : Resolution m call templates os name a) (hb : Resolution m call templates os name b) :
    a = b := by
  have hnone (h : ∀ o ∈ os, o.match? m call templates = Option.none) :
      tied m call templates os = [] := by
    refine List.eq_nil_iff_forall_not_mem.mpr fun o ho => ?_
    obtain ⟨hm, f, hf, -⟩ := mem_tied.mp ho
    rw [h o hm] at hf
    cases hf
  cases ha <;> cases hb <;> simp_all

theorem OverloadSet.candidates_eq (s : OverloadSet) :
    s.candidates m call templates =
      s.overloads.filterMap fun o => (o.match? m call templates).map fun f => (o, f) := by
  rw [candidates, List.filterMap_filter]
  congr 1
  funext o
  unfold Overload.match?
  by_cases h : templates.length ≤ o.templateSlots <;> simp [h, Function.comp_def]

theorem cheapest_ne_nil {α : Type} {cost : α → Nat} {xs : List α} (h : xs ≠ []) :
    OverloadSet.cheapest cost xs ≠ [] := by
  obtain ⟨x, hx⟩ := Option.ne_none_iff_exists'.mp (mt (List.argmin_eq_none (f := cost)).mp h)
  have hmem : x ∈ OverloadSet.cheapest cost xs := by
    simp only [OverloadSet.cheapest, List.mem_filter, List.all_eq_true, decide_eq_true_eq]
    exact ⟨List.argmin_mem hx, fun y hy => List.le_of_mem_argmin hy hx⟩
  exact List.ne_nil_of_mem hmem

theorem mem_candidates {s : OverloadSet} {o : Overload} {f : FunctionMatch} :
    (o, f) ∈ s.candidates m call templates ↔
      o ∈ s.overloads ∧ o.match? m call templates = some f := by
  simp [OverloadSet.candidates_eq]

/-- The overloads whose candidates are cheapest are the tied ones. -/
theorem cheapest_candidates (s : OverloadSet) :
    cheapest (fun c => c.2.casts) (s.candidates m call templates) =
      (tied m call templates s.overloads).filterMap fun o =>
        (o.match? m call templates).map fun f => (o, f) := by
  have hall (n : Nat) : ((s.candidates m call templates).all fun c => n ≤ c.2.casts) =
      s.overloads.all fun o => (o.match? m call templates).all fun f => n ≤ f.casts := by
    rw [OverloadSet.candidates_eq, List.all_filterMap]
    congr 1
    funext o
    cases o.match? m call templates <;> rfl
  simp only [cheapest, hall, tied]
  rw [OverloadSet.candidates_eq, List.filter_filterMap, List.filterMap_filter]
  congr 1
  funext o
  cases o.match? m call templates with
  | none => rfl
  | some f => simp [Option.filter]

theorem match?_of_mem_tied {o : Overload} (h : o ∈ tied m call templates os) :
    ∃ f, o.match? m call templates = some f :=
  let ⟨_, f, hf, _⟩ := mem_tied.mp h
  ⟨f, hf⟩

theorem listing_cheapest (s : OverloadSet) :
    ((cheapest (fun c => c.2.casts) (s.candidates m call templates)).map
      fun (o, _) => o.signature.text) =
        (tied m call templates s.overloads).map fun o => o.signature.text := by
  rw [cheapest_candidates, List.map_filterMap, ← List.filterMap_eq_map]
  refine List.filterMap_congr fun o ho => ?_
  obtain ⟨f, hf⟩ := match?_of_mem_tied ho
  rw [hf]
  rfl

theorem length_cheapest (s : OverloadSet) :
    (cheapest (fun c => c.2.casts) (s.candidates m call templates)).length =
      (tied m call templates s.overloads).length := by
  simpa only [List.length_map] using congrArg List.length (listing_cheapest s)

/-- A resolution without remembered answers. -/
theorem resolution_resolveFresh (s : OverloadSet) (name : String) :
    Resolution m call templates s.overloads name (s.resolveFresh name m call templates) := by
  unfold OverloadSet.resolveFresh
  split
  · rename_i hc
    refine .none fun o ho => Option.eq_none_iff_forall_ne_some.mpr fun f hf => ?_
    exact cheapest_ne_nil (List.ne_nil_of_mem (mem_candidates.mpr ⟨ho, hf⟩)) hc
  · rename_i o f hc
    obtain ⟨o', ho⟩ := List.length_eq_one_iff.mp ((length_cheapest s).symm.trans (by rw [hc]; rfl))
    obtain ⟨f', hf⟩ := match?_of_mem_tied (ho ▸ List.mem_singleton_self o')
    rw [cheapest_candidates, ho, List.filterMap_cons, hf] at hc
    cases hc
    exact .only ho hf
  · rename_i hnone hone
    rw [listing_cheapest]
    refine .several ?_
    rw [← length_cheapest]
    match hl : cheapest (fun c => c.2.casts) (s.candidates m call templates) with
    | [] => exact (hnone hl).elim
    | [(o, f)] => exact (hone o f hl).elim
    | _ :: _ :: l => exact (Nat.le_add_left 2 l.length).trans_eq (congrArg List.length hl.symm)

end Resolution

/-- A call as a table is asked about it. -/
structure Query where
  args : List ArgSig
  templates : List Ty

namespace Query

def call (q : Query) : Signature := .ofCall q.args

def templateArgs (q : Query) : List Signature := q.templates.map .ofType

/-- The text under which the answer is remembered. -/
def text (q : Query) : String := OverloadSet.callText q.call q.templateArgs

/-- The query keeps to one side of the kinds that are spelled with `long`. -/
def Legible (doubled : Bool) (q : Query) : Prop :=
  LegibleArgs doubled q.args ∧ ∀ t ∈ q.templates, t.legible doubled = true

end Query

/-- A request to the overload table of an owner. -/
inductive TableRequest
  | add (name : String) (type : FunctionTy) (id templateSlots : Nat)
  | resolve (name : String) (query : Query)

namespace TableRequest

/-- The overloads that are declared once a request is served: one with the parameters of an
earlier overload of its name is refused. -/
def declare (os : String → List Overload) : TableRequest → String → List Overload
  | add name type id slots, other =>
    if other = name ∧ ∀ o ∈ os name, o.signature.text ≠ (Signature.ofFunction type).text then
      os name ++ [⟨.ofFunction type, id, slots, type⟩]
    else os other
  | resolve .., other => os other

/-- The overloads declared by requests in order. -/
def declared (rs : List TableRequest) : String → List Overload := rs.foldl declare fun _ => []

def Legible (doubled : Bool) : TableRequest → Prop
  | add .. => True
  | resolve _ q => q.Legible doubled

end TableRequest

namespace OverloadTable

/-- The table after a request; a fault leaves it as it was. -/
def serve (m : Matcher) (t : OverloadTable) : TableRequest → OverloadTable
  | .add name type id slots => (t.add name type id slots).toOption.getD t
  | .resolve name q => ((t.resolve m name q.args q.templates).toOption.map Prod.snd).getD t

/-- The table of an owner after requests in order. -/
def after (m : Matcher) (rs : List TableRequest) : OverloadTable := rs.foldl (serve m) {}

end OverloadTable

section Histories

variable {doubled : Bool} {m : Matcher} {t : OverloadTable}

/-- Every remembered answer is the resolution of a legible query with its text. -/
def OverloadSet.Faithful (doubled : Bool) (m : Matcher) (name : String) (s : OverloadSet) : Prop :=
  ∀ text answer, (text, answer) ∈ s.answers → ∃ q : Query, q.Legible doubled ∧ q.text = text ∧
    s.resolveFresh name m q.call q.templateArgs = .ok answer

/-- A table that remembers only what its overloads answer. -/
def OverloadTable.Faithful (doubled : Bool) (m : Matcher) (t : OverloadTable) : Prop :=
  ∀ name s, t.set? name = some s → s.Faithful doubled m name

theorem Query.resolveFresh_eq {s : OverloadSet} {name : String} {q r : Query}
    (hq : q.Legible doubled) (hr : r.Legible doubled) (h : q.text = r.text) :
    s.resolveFresh name m q.call q.templateArgs = s.resolveFresh name m r.call r.templateArgs := by
  obtain ⟨hcall, htemplates⟩ := OverloadSet.eq_of_callText_eq hq.1 hr.1 hq.2 hr.2 h
  rw [call, call, templateArgs, templateArgs, hcall, htemplates]

namespace OverloadSet

variable {s u : OverloadSet} {name : String} {q : Query} {found : Option FunctionMatch}

/-- A remembered answer is the one that would be found again. -/
theorem map_fst_resolve (hs : s.Faithful doubled m name) (hq : q.Legible doubled) :
    (s.resolve name m q.call q.templateArgs).map Prod.fst =
      s.resolveFresh name m q.call q.templateArgs := by
  unfold resolve
  dsimp only
  split
  · rename_i answer hl
    obtain ⟨before, after, hl, -⟩ := List.lookup_eq_some_iff.mp hl
    obtain ⟨r, hr, htext, hanswer⟩ := hs q.text answer (hl ▸ List.mem_append_cons_self)
    rw [Query.resolveFresh_eq hq hr htext.symm, hanswer]
    rfl
  · cases s.resolveFresh name m q.call q.templateArgs <;> rfl

/-- A set that answers a query keeps its overloads and what it remembers, and may remember the
answer besides. -/
theorem resolve_cases (h : s.resolve name m q.call q.templateArgs = .ok (found, u)) :
    u = s ∨ s.resolveFresh name m q.call q.templateArgs = .ok found ∧
      u = { s with answers := (q.text, found) :: s.answers } := by
  unfold resolve at h
  dsimp only at h
  split at h
  · cases h
    exact .inl rfl
  · cases hf : s.resolveFresh name m q.call q.templateArgs <;> rw [hf] at h <;> cases h
    exact .inr ⟨rfl, rfl⟩

theorem overloads_of_resolve (h : s.resolve name m q.call q.templateArgs = .ok (found, u)) :
    u.overloads = s.overloads := by
  rcases resolve_cases h with rfl | ⟨-, rfl⟩ <;> rfl

theorem faithful_of_resolve (hs : s.Faithful doubled m name) (hq : q.Legible doubled)
    (h : s.resolve name m q.call q.templateArgs = .ok (found, u)) : u.Faithful doubled m name := by
  rcases resolve_cases h with rfl | ⟨hf, rfl⟩
  · exact hs
  · rintro text answer (_ | ⟨_, hmem⟩)
    · exact ⟨q, hq, rfl, hf⟩
    · exact hs text answer hmem

theorem declared?_eq_none_iff {signature : Signature} :
    s.declared? signature = none ↔ ∀ o ∈ s.overloads, o.signature.text ≠ signature.text := by
  simp [declared?]

end OverloadSet

namespace OverloadTable

theorem overloads_put (t : OverloadTable) (name : String) (s : OverloadSet) (other : String) :
    (t.put name s).overloads other = if other == name then s.overloads else t.overloads other := by
  unfold overloads
  rw [set?_put]
  split <;> rfl

theorem overloads_getD_set? (t : OverloadTable) (name : String) :
    ((t.set? name).getD {}).overloads = t.overloads name := by
  unfold overloads
  cases t.set? name <;> rfl

theorem overloads_of_set? {name : String} {s : OverloadSet} (hs : t.set? name = some s) :
    t.overloads name = s.overloads := by
  rw [overloads, hs]
  rfl

theorem resolve_of_set?_none {name : String} (hs : t.set? name = none) (q : Query) :
    t.resolve m name q.args q.templates = .ok (none, t) := by
  simp only [resolve, hs]

theorem resolve_of_set?_some {name : String} {s : OverloadSet} (hs : t.set? name = some s)
    (q : Query) :
    t.resolve m name q.args q.templates =
      (s.resolve name m q.call q.templateArgs).map fun answer =>
        (answer.1, t.put name answer.2) := by
  simp only [resolve, hs]
  rfl

/-- A function is added after the overloads of its name, unless one of them has its signature. -/
theorem add_eq (t : OverloadTable) (name : String) (type : FunctionTy) (id slots : Nat) :
    t.add name type id slots =
      if ∀ o ∈ t.overloads name, o.signature.text ≠ (Signature.ofFunction type).text then
        .ok (t.put name
          ⟨t.overloads name ++ [⟨.ofFunction type, id, slots, type⟩], []⟩)
      else .error (.redeclared name) := by
  have hd : ((t.set? name).getD {}).declared? (.ofFunction type) = none ↔ _ :=
    OverloadSet.declared?_eq_none_iff
  rw [overloads_getD_set?] at hd
  unfold add OverloadSet.add
  dsimp only
  rw [overloads_getD_set?]
  split
  · rename_i hs
    rw [hs] at hd
    rw [if_neg fun h => Option.some_ne_none _ (hd.mpr h)]
    rfl
  · rename_i hs
    rw [if_pos (hd.mp hs)]
    rfl

theorem overloads_serve (t : OverloadTable) (r : TableRequest) :
    (t.serve m r).overloads = TableRequest.declare t.overloads r := by
  funext other
  unfold OverloadTable.serve
  cases r with
  | add name type id slots =>
    dsimp only
    rw [add_eq, TableRequest.declare]
    split
    · rename_i hall
      simp only [and_iff_left hall, Except.toOption, Option.getD_some, overloads_put, beq_iff_eq]
    · rename_i hall
      rw [if_neg fun h => hall h.2]
      rfl
  | resolve name q =>
    dsimp only [TableRequest.declare]
    cases hs : t.set? name with
    | none =>
      rw [resolve_of_set?_none hs]
      rfl
    | some s =>
      rw [resolve_of_set?_some hs]
      cases ha : s.resolve name m q.call q.templateArgs with
      | error => rfl
      | ok answer =>
        have hu := OverloadSet.overloads_of_resolve ha
        refine (overloads_put t name answer.2 other).trans ?_
        split
        · rename_i ho
          rw [hu, beq_iff_eq.mp ho, overloads_of_set? hs]
        · rfl

theorem overloads_after (rs : List TableRequest) :
    (after m rs).overloads = TableRequest.declared rs := by
  induction rs using List.reverseRecOn with
  | nil => rfl
  | append_singleton rs r ih =>
    simp only [after, TableRequest.declared, List.foldl_append, List.foldl_cons, List.foldl_nil]
    exact (overloads_serve _ r).trans (congrArg (TableRequest.declare · r) ih)

theorem Faithful.put (ht : t.Faithful doubled m) {name : String} {s : OverloadSet}
    (hs : s.Faithful doubled m name) : (t.put name s).Faithful doubled m := by
  intro other u hu
  rw [set?_put] at hu
  by_cases ho : other = name
  · simp only [ho, beq_self_eq_true, if_true, Option.some.injEq] at hu
    exact ho ▸ hu ▸ hs
  · simp only [beq_eq_false_iff_ne.mpr ho, Bool.false_eq_true, if_false] at hu
    exact ht other u hu

/-- A request keeps a table faithful. -/
theorem Faithful.serve (ht : t.Faithful doubled m) {r : TableRequest} (hr : r.Legible doubled) :
    (t.serve m r).Faithful doubled m := by
  unfold OverloadTable.serve
  cases r with
  | add name type id slots =>
    dsimp only
    rw [add_eq]
    split
    · exact ht.put fun _ _ h => nomatch h
    · exact ht
  | resolve name q =>
    dsimp only
    cases hs : t.set? name with
    | none =>
      rw [resolve_of_set?_none hs]
      exact ht
    | some s =>
      rw [resolve_of_set?_some hs]
      cases ha : s.resolve name m q.call q.templateArgs with
      | error => exact ht
      | ok answer => exact ht.put (OverloadSet.faithful_of_resolve (ht name s hs) hr ha)

theorem faithful_after {rs : List TableRequest} (h : ∀ r ∈ rs, r.Legible doubled) :
    (after m rs).Faithful doubled m := by
  induction rs using List.reverseRecOn with
  | nil => exact fun _ _ h => nomatch h
  | append_singleton rs r ih =>
    simp only [List.forall_mem_append, List.forall_mem_singleton] at h
    simp only [after, List.foldl_append, List.foldl_cons, List.foldl_nil]
    exact (ih h.1).serve h.2

/-- A faithful table answers a query as its overloads resolve it. -/
theorem resolution_resolve (ht : t.Faithful doubled m) (name : String) {q : Query}
    (hq : q.Legible doubled) :
    Resolution m q.call q.templateArgs (t.overloads name) name
      ((t.resolve m name q.args q.templates).map Prod.fst) := by
  cases hs : t.set? name with
  | none =>
    rw [resolve_of_set?_none hs, overloads, hs]
    exact .none fun _ h => nomatch h
  | some s =>
    have hfst : (t.resolve m name q.args q.templates).map Prod.fst =
        (s.resolve name m q.call q.templateArgs).map Prod.fst := by
      rw [resolve_of_set?_some hs]
      cases s.resolve name m q.call q.templateArgs <;> rfl
    rw [hfst, OverloadSet.map_fst_resolve (ht name s hs) hq, overloads_of_set? hs]
    exact resolution_resolveFresh s name

/-- Over every history, the answer to a query is its resolution over the functions declared so
far, and only queries of one signature are answered alike. -/
theorem resolve_of_history {rs : List TableRequest} (hrs : ∀ r ∈ rs, r.Legible doubled)
    (name : String) {q : Query} (hq : q.Legible doubled) :
    Resolution m q.call q.templateArgs (TableRequest.declared rs name) name
        (((after m rs).resolve m name q.args q.templates).map Prod.fst) ∧
      ∀ r : Query, r.Legible doubled → r.text = q.text →
        r.call = q.call ∧ r.templateArgs = q.templateArgs := by
  refine ⟨?_, fun r hr htext => OverloadSet.eq_of_callText_eq hr.1 hq.1 hr.2 hq.2 htext⟩
  rw [← overloads_after]
  exact resolution_resolve (faithful_after hrs) name hq

/-- A function of `int` that is declared and called with a `char`, asked about once more. -/
theorem resolve_of_history_char :
    let m : Matcher := ⟨.function, {}⟩
    let q : Query := ⟨[.rvalue .char], []⟩
    let rs : List TableRequest :=
      [.add "f" ⟨.void, [.plain .int], false⟩ 0 0, .resolve "f" q]
    (∀ r ∈ rs, r.Legible true) ∧ q.Legible true ∧
      Resolution m q.call q.templateArgs (TableRequest.declared rs "f") "f"
        (((after m rs).resolve m "f" q.args q.templates).map Prod.fst) := by
  intro m q rs
  have hq : q.Legible true := ⟨by simp [q, LegibleArgs, ArgSig.rvalue]; decide, nofun⟩
  have hrs : ∀ r ∈ rs, r.Legible true := by simp [rs, TableRequest.Legible, hq]
  exact ⟨hrs, hq, (resolve_of_history (m := m) hrs "f" hq).1⟩

/-- A call with two arguments of type `long` is answered by what is remembered for a call with
one of type `long long`, though no function accepts it. -/
theorem resolve_shares_answer :
    let m : Matcher := ⟨.function, {}⟩
    let rs : List TableRequest :=
      [.add "f" ⟨.void, [.plain (.arith .longLong)], false⟩ 0 0,
        .resolve "f" ⟨[.rvalue (.arith .longLong)], []⟩]
    let q : Query := ⟨[.rvalue (.arith .long), .rvalue (.arith .long)], []⟩
    Resolution m q.call q.templateArgs (TableRequest.declared rs "f") "f" (.ok none) ∧
      ¬ Resolution m q.call q.templateArgs (TableRequest.declared rs "f") "f"
        (((after m rs).resolve m "f" q.args q.templates).map Prod.fst) := by
  intro m rs q
  have hnone :
      Resolution m q.call q.templateArgs (TableRequest.declared rs "f") "f" (.ok none) := by
    refine .none fun o ho => Option.isNone_iff_eq_none.mp ?_
    have hall : (TableRequest.declared rs "f").all
        fun o => (o.match? m q.call q.templateArgs).isNone := by
      decide +kernel
    exact List.all_eq_true.mp hall o ho
  refine ⟨hnone, fun h => ?_⟩
  have hfound : ((((after m rs).resolve m "f" q.args q.templates).map Prod.fst).toOption.any
      Option.isSome) = true := by
    decide +kernel
  rw [h.unique hnone] at hfound
  cases hfound

end OverloadTable

end Histories

end Stepwise
