import Mathlib.Data.List.Infix
import Stepwise.Overload.Signature
import Stepwise.Proofs.Token.Scanning

/-! # Signatures from their texts

The text of a signature is a sequence of words, and a kind such as `unsigned long` has
several. Read from the end, the words give the tokens back as long as the single `long`
and the doubled one do not meet, except that a struct may be called what the mark of a
function is.

Function types nest, and their signatures mark them at both ends. Read from the end, the
region of a token between these marks tells whether it names a struct. So the text of a
signature gives its tokens back, for types whose structs have ordinary names and whose
kinds do not mix the single `long` with the doubled one.
-/

namespace Stepwise

namespace ArithKind

/-- One side of the kinds that are spelled with `long`: all but the one that is a single `long`,
or those without a doubled `long`. -/
def legible (doubled : Bool) (k : ArithKind) : Bool :=
  if doubled then k != .long else k != .longLong && k != .unsignedLongLong

end ArithKind

/-- A text that joins others is split where they are and where they meet. -/
theorem splitOn_intercalate_flatMap {α : Type} [BEq α] [LawfulBEq α] (x : α) {ls : List (List α)}
    (h : ls ≠ []) : ([x].intercalate ls).splitOn x = ls.flatMap fun l => l.splitOn x := by
  induction ls with
  | nil => exact absurd rfl h
  | cons l ls ih =>
    cases ls with
    | nil => simp
    | cons m ls =>
      rw [List.intercalate_cons_cons, List.flatMap_cons, ← ih (List.cons_ne_nil m ls),
        List.append_assoc, List.singleton_append, List.splitOn_append_cons_self]

namespace SigToken

/-- The words of the text of a token. -/
def words (t : SigToken) : List (List Char) := t.text.toList.splitOn ' '

/-- The tokens with a text of their own, of the kinds those on one side. -/
def fixed (doubled : Bool) : List SigToken :=
  [const, pointer, reference, function, openParen, closeParen, ellipsis, optional, name "void"]
    ++ (ArithKind.all.filter (ArithKind.legible doubled)).map fun k => name k.name

/-- The tokens of types that a program can write, of the kinds those on one side. -/
def Legible (doubled : Bool) (t : SigToken) : Prop :=
  t ∈ fixed doubled ∨ ∃ text, t = struct text ∧ Lexeme.isName text = true

/-- The token as its text tells it: a struct may have the name of the mark of functions. -/
def bare : SigToken → SigToken
  | struct text => if text = "FUNCTION" then function else struct text
  | t => t

/-- The words that some kinds have before those of another kind. -/
def qualifiers : List (Option (List Char)) := [some "signed".toList, some "unsigned".toList]

variable {doubled : Bool} {t u : SigToken}

theorem words_ne_nil (t : SigToken) : t.words ≠ [] := List.splitOn_ne_nil ' ' _

theorem words_struct {text : String} (h : Lexeme.isName text = true) :
    (struct text).words = [text.toList] :=
  List.splitOn_eq_singleton (Lexeme.notMem_of_isWord (Lexeme.isWord_of_isName h) rfl)

/-- Of two tokens one of which ends with the words of the other, they are the same or the longer
one has a qualifier in front of those words. -/
theorem eq_or_qualified_of_fixed : ∀ doubled, ∀ t ∈ fixed doubled, ∀ u ∈ fixed doubled,
    t.words <:+ u.words →
      t = u ∨ (u.words.take (u.words.length - t.words.length)).getLast? ∈ qualifiers := by
  decide +kernel

/-- No struct but one called as the mark of functions has a word that ends another token. -/
theorem not_isName_of_fixed : ∀ doubled, ∀ t ∈ fixed doubled, ∀ word ∈ t.words.getLast?,
    t = function ∧ word = "FUNCTION".toList ∨ Lexeme.isName (String.ofList word) = false := by
  decide +kernel

theorem getLast?_notMem_qualifiers_of_fixed : ∀ doubled, ∀ t ∈ fixed doubled,
    t.words.getLast? ∉ qualifiers := by
  decide +kernel

theorem Legible.getLast?_notMem (h : t.Legible doubled) : t.words.getLast? ∉ qualifiers := by
  rcases h with h | ⟨text, rfl, h⟩
  · exact getLast?_notMem_qualifiers_of_fixed doubled t h
  · rw [words_struct h, List.getLast?_singleton]
    simp only [qualifiers, List.mem_cons, Option.some.injEq, List.not_mem_nil, or_false, not_or,
      String.toList_inj]
    exact ⟨Lexeme.ne_of_isName h rfl, Lexeme.ne_of_isName h rfl⟩

/-- A struct and a token of fixed text that end with the same word. -/
theorem bare_eq_of_last {text : String} (hn : Lexeme.isName text = true) (hu : u ∈ fixed doubled)
    (h : u.words.getLast? = some text.toList) :
    u = function ∧ (struct text).bare = function := by
  rcases not_isName_of_fixed doubled u hu text.toList h with ⟨rfl, hw⟩ | hw
  · exact ⟨rfl, if_pos (String.toList_inj.mp hw)⟩
  · rw [String.ofList_toList, hn] at hw
    cases hw

/-- The first token is the second one as far as words tell, or those of the second one go on with
a qualifier before those of the first. -/
theorem bare_eq_or_qualified (ht : t.Legible doubled) (hu : u.Legible doubled)
    (h : t.words <:+ u.words) :
    (t.bare = u.bare ∧ t.words = u.words) ∨
      ∃ front, u.words = front ++ t.words ∧ front.getLast? ∈ qualifiers := by
  have hlast : u.words.getLast? = t.words.getLast? := by
    obtain ⟨front, hf⟩ := h
    rw [← hf, List.getLast?_append_of_ne_nil front (words_ne_nil t)]
  rcases ht with ht | ⟨a, rfl, ha⟩ <;> rcases hu with hu | ⟨b, rfl, hb⟩
  · rcases eq_or_qualified_of_fixed doubled t ht u hu h with rfl | hq
    · exact .inl ⟨rfl, rfl⟩
    · refine .inr ⟨_, ?_, hq⟩
      obtain ⟨front, hf⟩ := h
      simp [← hf]
  · rw [words_struct hb, List.getLast?_singleton] at hlast
    obtain ⟨rfl, hbare⟩ := bare_eq_of_last hb ht hlast.symm
    refine .inl ⟨hbare.symm, h.eq_of_length_le ?_⟩
    rw [words_struct hb]
    exact List.length_pos_iff.mpr (words_ne_nil _)
  · rw [words_struct ha, List.getLast?_singleton] at hlast
    obtain ⟨rfl, hbare⟩ := bare_eq_of_last ha hu hlast
    have hw : (function : SigToken).words = ["FUNCTION".toList] := by decide
    refine .inl ⟨hbare, h.eq_of_length_le ?_⟩
    rw [hw, words_struct ha]
    exact Nat.le_refl 1
  · rw [words_struct ha, words_struct hb, List.getLast?_singleton, List.getLast?_singleton,
      Option.some.injEq, String.toList_inj] at hlast
    exact .inl ⟨by rw [hlast], by rw [hlast]⟩

end SigToken

namespace Signature

variable {doubled : Bool} {s u : Signature}

theorem splitOn_text (h : s ≠ []) : s.text.toList.splitOn ' ' = s.flatMap SigToken.words := by
  have hs : (" " : String).toList = [' '] := rfl
  rw [text, String.toList_intercalate, hs, splitOn_intercalate_flatMap _ (by simpa using h)]
  simp only [List.flatMap_map]
  rfl

/-- The words of legible tokens do not end with a qualifier. -/
theorem getLast?_notMem_of_words (hs : ∀ t ∈ s, t.Legible doubled) {ws front : List (List Char)}
    (h : s.flatMap SigToken.words = ws ++ front) : front.getLast? ∉ SigToken.qualifiers := by
  rcases front.eq_nil_or_concat' with rfl | ⟨front, w, rfl⟩
  · decide
  rcases s.eq_nil_or_concat' with rfl | ⟨init, t, rfl⟩
  · simp at h
  · have hlast : t.words.getLast? = some w := by
      rw [← List.getLast?_append_of_ne_nil (init.flatMap SigToken.words) t.words_ne_nil,
        ← List.flatMap_singleton (f := SigToken.words) (x := t), ← List.flatMap_append, h]
      simp
    rw [List.getLast?_concat, ← hlast]
    exact (hs t (by simp)).getLast?_notMem

/-- The words of legible tokens tell the tokens, up to the name of a struct. -/
theorem map_bare_eq_of_words_eq (hs : ∀ t ∈ s, t.Legible doubled) (hu : ∀ t ∈ u, t.Legible doubled)
    (h : s.flatMap SigToken.words = u.flatMap SigToken.words) :
    s.map SigToken.bare = u.map SigToken.bare := by
  induction s using List.reverseRecOn generalizing u with
  | nil =>
    cases u with
    | nil => rfl
    | cons t u => simp [t.words_ne_nil] at h
  | append_singleton s t ih =>
    rcases u.eq_nil_or_concat' with rfl | ⟨u, v, rfl⟩
    · simp [t.words_ne_nil] at h
    simp only [List.mem_append, List.mem_singleton, or_imp, forall_and, forall_eq] at hs hu
    simp only [List.flatMap_append, List.flatMap_singleton] at h
    have hsame (hb : t.bare = v.bare) (hw : t.words = v.words) :
        (s ++ [t]).map SigToken.bare = (u ++ [v]).map SigToken.bare := by
      rw [hw, List.append_cancel_right_eq] at h
      simp only [List.map_append, List.map_singleton, hb, ih hs.1 hu.1 h]
    -- One of the last tokens ends with all the words of the other.
    rcases List.suffix_or_suffix_of_suffix (List.suffix_append _ t.words)
      (h ▸ List.suffix_append _ v.words) with hw | hw
    · rcases SigToken.bare_eq_or_qualified hs.2 hu.2 hw with hb | ⟨front, hv, hq⟩
      · exact hsame hb.1 hb.2
      · rw [hv, ← List.append_assoc, List.append_cancel_right_eq] at h
        exact absurd hq (getLast?_notMem_of_words hs.1 h)
    · rcases SigToken.bare_eq_or_qualified hu.2 hs.2 hw with hb | ⟨front, hv, hq⟩
      · exact hsame hb.1.symm hb.2.symm
      · rw [hv, ← List.append_assoc, List.append_cancel_right_eq] at h
        exact absurd hq (getLast?_notMem_of_words hu.1 h.symm)

end Signature

namespace Ty

mutual

/-- A type with structs of ordinary names and kinds of one side. -/
def legible (doubled : Bool) : Ty → Bool
  | void => true
  | marker => false
  | arith k => k.legible doubled
  | struct name _ => Lexeme.isName name
  | pointer target _ => legible doubled target
  | array element _ => legible doubled element
  | functionPointer f => legibleFunction doubled f
  | function f => legibleFunction doubled f

def legibleFunction (doubled : Bool) : FunctionOf Ty → Bool
  | ⟨ret, params, _⟩ => legible doubled ret && legibleParams doubled params

def legibleParams (doubled : Bool) : List (ParamOf Ty) → Bool
  | [] => true
  | p :: ps => legibleParam doubled p && legibleParams doubled ps

def legibleParam (doubled : Bool) : ParamOf Ty → Bool
  | ⟨ty, _, _, _⟩ => legible doubled ty

end

end Ty

namespace SigToken

variable {doubled : Bool}

theorem legible_name {k : ArithKind} (h : k.legible doubled = true) :
    (name k.name).Legible doubled :=
  .inl (List.mem_append_right _
    (List.mem_map_of_mem (List.mem_filter.mpr ⟨ArithKind.mem_all k, h⟩)))

/-- The marks have fixed texts. -/
theorem legible_mark {t : SigToken}
    (h : t ∈ [const, pointer, reference, function, openParen, closeParen, ellipsis, optional,
      name "void"]) : t.Legible doubled :=
  .inl (List.mem_append_left _ h)

@[simp] theorem bare_pointer : bare pointer = pointer := rfl

@[simp] theorem bare_reference : bare reference = reference := rfl

@[simp] theorem bare_optional : bare optional = optional := rfl

@[simp] theorem bare_ellipsis : bare ellipsis = ellipsis := rfl

@[simp] theorem bare_function : bare function = function := rfl

@[simp] theorem bare_openParen : bare openParen = openParen := rfl

@[simp] theorem bare_closeParen : bare closeParen = closeParen := rfl

end SigToken

namespace Signature

open Ty

variable {doubled : Bool}

/-- All tokens of a signature are legible. -/
def Legible (doubled : Bool) (s : Signature) : Prop := ∀ t ∈ s, t.Legible doubled

@[simp] theorem legible_nil : Legible doubled [] := fun _ h => nomatch h

@[simp] theorem legible_cons {t : SigToken} {s : Signature} :
    Legible doubled (t :: s) ↔ t.Legible doubled ∧ Legible doubled s := List.forall_mem_cons

@[simp] theorem legible_append {s u : Signature} :
    Legible doubled (s ++ u) ↔ Legible doubled s ∧ Legible doubled u := List.forall_mem_append

theorem legible_ite {c : Prop} [Decidable c] {t : SigToken} (h : t.Legible doubled) :
    Legible doubled (if c then [t] else []) := by
  split <;> simp [h]

mutual

theorem legible_ofType : ∀ t : Ty, t.legible doubled = true → Legible doubled (ofType t)
  | .void, _ => by simpa [ofType] using SigToken.legible_mark (by decide)
  | .marker, h => by simp [legible] at h
  | .arith k, h => by simpa [ofType] using SigToken.legible_name (by simpa [legible] using h)
  | .struct name _, h => by
    simp only [ofType, legible_cons, legible_nil, and_true]
    exact .inr ⟨name, rfl, by simpa [legible] using h⟩
  | .pointer target c, h => by
    have ht := legible_ofType target (by simpa [legible] using h)
    have hc : Legible doubled (constIf c) := legible_ite (SigToken.legible_mark (by decide))
    simpa [ofType, ht, hc] using SigToken.legible_mark (by decide)
  | .array element _, h => by
    have ht := legible_ofType element (by simpa [legible] using h)
    simpa [ofType, ht] using SigToken.legible_mark (by decide)
  | .functionPointer f, h => by
    have hf := legible_ofFunctionType f (by simpa [legible] using h)
    simpa [ofType, hf] using SigToken.legible_mark (by decide)
  | .function f, h => by
    simpa [ofType] using legible_ofFunctionType f (by simpa [legible] using h)

theorem legible_ofFunctionType : ∀ f : FunctionOf Ty, legibleFunction doubled f = true →
    Legible doubled (ofFunctionType f)
  | ⟨ret, params, variadic⟩, h => by
    simp only [legibleFunction, Bool.and_eq_true] at h
    have hr := legible_ofType ret h.1
    have hp := legible_ofParams params h.2
    have hv : Legible doubled (if variadic then [.ellipsis] else []) :=
      legible_ite (SigToken.legible_mark (by decide))
    simp only [ofFunctionType, legible_cons, legible_append, legible_nil, hr, hp, hv, and_true]
    exact ⟨⟨SigToken.legible_mark (by decide), SigToken.legible_mark (by decide)⟩,
      SigToken.legible_mark (by decide)⟩

theorem legible_ofParams : ∀ ps : List (ParamOf Ty), legibleParams doubled ps = true →
    Legible doubled (ofParams ps)
  | [], _ => by simp [ofParams]
  | p :: ps, h => by
    simp only [legibleParams, Bool.and_eq_true] at h
    simp [ofParams, legible_ofParam p h.1, legible_ofParams ps h.2]

theorem legible_ofParam : ∀ p : ParamOf Ty, legibleParam doubled p = true →
    Legible doubled (ofParam p)
  | ⟨ty, reference, readonly, optional⟩, h => by
    have ht := legible_ofType ty (by simpa [legibleParam] using h)
    have hc : Legible doubled (constIf (readonly && reference)) :=
      legible_ite (SigToken.legible_mark (by decide))
    have hr : Legible doubled (if reference then [.reference] else []) :=
      legible_ite (SigToken.legible_mark (by decide))
    have ho : Legible doubled (if optional then [.optional] else []) :=
      legible_ite (SigToken.legible_mark (by decide))
    simp [ofParam, ht, hc, hr, ho]

end

/-- The part of a function type in which a signature that is read from its end goes on. -/
inductive Region
  /-- Among parameters, at the end of one or past it. -/
  | params
  /-- At the end of a return type. -/
  | result
  /-- Past the base of a return type, at the mark of its function. -/
  | mark

/-- The region past the base of a type. -/
def Region.past : Region → Region
  | .params => .params
  | .result | .mark => .mark

/-- The tokens of a signature that is read from its end. A closing parenthesis enters the
parameters of a function, an opening one leaves them for its return type. -/
def restore : List Region → Signature → Signature
  | _, [] => []
  | [], .closeParen :: ts => .closeParen :: restore [.params] ts
  | p :: ps, .closeParen :: ts => .closeParen :: restore (.params :: p.past :: ps) ts
  | .params :: ps, .openParen :: ts => .openParen :: restore (.result :: ps) ts
  | .mark :: ps, .function :: ts => .function :: restore ps ts
  | p :: ps, .function :: ts => .struct "FUNCTION" :: restore (p.past :: ps) ts
  | .result :: ps, .pointer :: ts => .pointer :: restore (.result :: ps) ts
  | .result :: ps, t :: ts => t :: restore (.mark :: ps) ts
  | ps, t :: ts => t :: restore ps ts

section

variable {p : Region} {ps : List Region} (rest : Signature)

@[simp] theorem restore_params {t : SigToken}
    (h : t ∉ [SigToken.closeParen, .openParen, .function]) :
    restore (.params :: ps) (t :: rest) = t :: restore (.params :: ps) rest := by
  cases t <;> simp_all [restore]

theorem restore_params_ite {c : Prop} [Decidable c] {t : SigToken}
    (h : t ∉ [SigToken.closeParen, .openParen, .function]) :
    restore (.params :: ps) ((if c then [t] else []).reverse ++ rest) =
      (if c then [t] else []).reverse ++ restore (.params :: ps) rest := by
  split <;> simp [restore_params rest h]

theorem restore_closeParen :
    restore (p :: ps) (.closeParen :: rest) =
      .closeParen :: restore (.params :: p.past :: ps) rest := by
  cases p <;> rfl

theorem restore_pointer :
    restore (p :: ps) (.pointer :: rest) = .pointer :: restore (p :: ps) rest := by
  cases p <;> rfl

theorem restore_name (text : String) :
    restore (p :: ps) (.name text :: rest) = .name text :: restore (p.past :: ps) rest := by
  cases p <;> rfl

theorem restore_struct (hp : p ≠ .mark) (name : String) :
    restore (p :: ps) ((SigToken.struct name).bare :: rest) =
      .struct name :: restore (p.past :: ps) rest := by
  unfold SigToken.bare
  by_cases hn : name = "FUNCTION" <;> cases p <;> simp_all [restore, Region.past]

theorem restore_constIf (c : Bool) :
    restore (p.past :: ps) ((constIf c).reverse ++ rest) =
      (constIf c).reverse ++ restore (p.past :: ps) rest := by
  cases c <;> cases p <;> rfl

end

theorem map_bare_constIf (c : Bool) : (constIf c).map SigToken.bare = constIf c := by
  cases c <;> rfl

theorem map_bare_ite {c : Prop} [Decidable c] {t : SigToken} (h : t.bare = t) :
    (if c then [t] else []).map SigToken.bare = if c then [t] else [] := by
  split <;> simp [h]

mutual

/-- The tokens of a type are read back from its end, at the end of a parameter or of a return
type. -/
theorem restore_ofType {p : Region} (hp : p ≠ .mark) (ps : List Region) (rest : Signature) :
    ∀ t : Ty, restore (p :: ps) (((ofType t).map SigToken.bare).reverse ++ rest) =
      (ofType t).reverse ++ restore (p.past :: ps) rest
  | .void | .marker | .arith _ => restore_name rest _
  | .struct name _ => restore_struct rest hp name
  | .pointer target c => by
    simp only [ofType, map_bare_constIf, List.map_append, List.map_cons, List.map_nil,
      List.reverse_append, List.reverse_cons, List.reverse_nil, List.nil_append, List.cons_append,
      List.append_assoc, SigToken.bare_pointer]
    rw [restore_pointer, restore_ofType hp ps _ target, restore_constIf]
  | .array element _ => by
    simp only [ofType, List.map_append, List.map_cons, List.map_nil, List.reverse_append,
      List.reverse_cons, List.reverse_nil, List.nil_append, List.cons_append,
      SigToken.bare_pointer]
    rw [restore_pointer, restore_ofType hp ps _ element]
  | .functionPointer f => by
    simp only [ofType, List.map_append, List.map_cons, List.map_nil, List.reverse_append,
      List.reverse_cons, List.reverse_nil, List.nil_append, List.cons_append,
      SigToken.bare_pointer]
    rw [restore_pointer, restore_ofFunctionType ps _ f]
  | .function f => by
    rw [ofType]
    exact restore_ofFunctionType ps rest f

theorem restore_ofFunctionType {p : Region} (ps : List Region) (rest : Signature) :
    ∀ f : FunctionOf Ty,
      restore (p :: ps) (((ofFunctionType f).map SigToken.bare).reverse ++ rest) =
        (ofFunctionType f).reverse ++ restore (p.past :: ps) rest
  | ⟨ret, params, variadic⟩ => by
    simp only [ofFunctionType, List.map_append, List.map_cons, List.map_nil, List.reverse_append,
      List.reverse_cons, List.reverse_nil, List.nil_append, List.cons_append, List.append_assoc,
      SigToken.bare_closeParen, SigToken.bare_openParen, SigToken.bare_function,
      map_bare_ite SigToken.bare_ellipsis]
    rw [restore_closeParen, restore_params_ite _ (by decide), restore_ofParams _ _ params, restore,
      restore_ofType (p := .result) nofun (p.past :: ps) _ ret]
    rfl

theorem restore_ofParams (ps : List Region) (rest : Signature) :
    ∀ params : List (ParamOf Ty),
      restore (.params :: ps) (((ofParams params).map SigToken.bare).reverse ++ rest) =
        (ofParams params).reverse ++ restore (.params :: ps) rest
  | [] => rfl
  | param :: params => by
    simp only [ofParams, List.map_append, List.reverse_append, List.append_assoc]
    rw [restore_ofParams ps _ params, restore_ofParam ps _ param]

theorem restore_ofParam (ps : List Region) (rest : Signature) :
    ∀ param : ParamOf Ty,
      restore (.params :: ps) (((ofParam param).map SigToken.bare).reverse ++ rest) =
        (ofParam param).reverse ++ restore (.params :: ps) rest
  | ⟨ty, reference, readonly, optional⟩ => by
    simp only [ofParam, List.map_append, List.reverse_append, List.append_assoc, map_bare_constIf,
      map_bare_ite SigToken.bare_reference, map_bare_ite SigToken.bare_optional]
    rw [restore_params_ite _ (by decide), restore_params_ite _ (by decide),
      restore_ofType (p := .params) nofun ps _ ty]
    exact congrArg _ (congrArg _ (congrArg _ (restore_constIf (p := .params) rest _)))

end

/-- The words of a signature give it back, once its tokens are read from the end. -/
structure Readable (doubled : Bool) (ps : List Region) (s : Signature) : Prop where
  legible : Legible doubled s
  restored : restore ps (s.map SigToken.bare).reverse = s.reverse

/-- What comes before the arguments in the signature of a call. -/
def head : Signature := [.function, .result, .openParen]

section

variable {ps : List Region} {s u : Signature}

theorem eq_of_words_eq (hs : Readable doubled ps s) (hu : Readable doubled ps u)
    (h : s.flatMap SigToken.words = u.flatMap SigToken.words) : s = u := by
  have hbare := map_bare_eq_of_words_eq hs.legible hu.legible h
  rw [← List.reverse_inj, ← hs.restored, ← hu.restored, hbare]

theorem eq_of_text_eq (hs : Readable doubled ps s) (hu : Readable doubled ps u) (hsn : s ≠ [])
    (hun : u ≠ []) (h : s.text = u.text) : s = u := by
  refine eq_of_words_eq hs hu ?_
  rw [← splitOn_text hsn, h, splitOn_text hun]

theorem eq_of_text_head_eq (hs : Readable doubled ps s) (hu : Readable doubled ps u)
    (h : (head ++ s).text = (head ++ u).text) : s = u := by
  have hn (v : Signature) : head ++ v ≠ [] := List.cons_ne_nil _ _
  have hw : (head ++ s).flatMap SigToken.words = (head ++ u).flatMap SigToken.words := by
    rw [← splitOn_text (hn s), h, splitOn_text (hn u)]
  rw [List.flatMap_append, List.flatMap_append, List.append_cancel_left_eq] at hw
  exact eq_of_words_eq hs hu hw

theorem ofType_ne_nil (t : Ty) : ofType t ≠ [] := by
  cases t with
  | function f => rw [ofType, ofFunctionType]; exact List.cons_ne_nil _ _
  | _ => simp [ofType]

theorem readable_ofType {t : Ty} (h : t.legible doubled = true) :
    Readable doubled [.params] (ofType t) where
  legible := legible_ofType t h
  restored := by simpa [restore] using restore_ofType (p := .params) nofun [] [] t

theorem ofFunction_eq (f : FunctionTy) :
    ofFunction f =
      head ++ (ofParams f.params ++ (if f.variadic then [.ellipsis] else []) ++ [.closeParen]) := by
  simp only [ofFunction, head, List.append_assoc]

theorem readable_ofParams {f : FunctionTy} (h : legibleParams doubled f.params = true) :
    Readable doubled []
      (ofParams f.params ++ (if f.variadic then [.ellipsis] else []) ++ [.closeParen]) where
  legible := by
    simpa [legible_ofParams _ h, legible_ite (SigToken.legible_mark (t := .ellipsis) (by decide))]
      using SigToken.legible_mark (by decide)
  restored := by
    have hp := restore_ofParams [] [] f.params
    rw [List.append_nil] at hp
    simp [restore, map_bare_ite SigToken.bare_ellipsis, restore_params_ite _, hp]

/-- The types of the arguments of a call are legible. -/
def LegibleArgs (doubled : Bool) (args : List ArgSig) : Prop :=
  ∀ a ∈ args, a.ty.legible doubled = true

theorem restore_ofArgs (ps : List Region) (rest : Signature) (args : List ArgSig) :
    restore (.params :: ps) (((args.flatMap ofArg).map SigToken.bare).reverse ++ rest) =
      (args.flatMap ofArg).reverse ++ restore (.params :: ps) rest := by
  induction args generalizing rest with
  | nil => rfl
  | cons a args ih =>
    simp only [List.flatMap_cons, ofArg, List.map_append, List.reverse_append, List.append_assoc,
      map_bare_constIf, map_bare_ite SigToken.bare_reference]
    rw [ih, restore_params_ite _ (by decide), restore_ofType (p := .params) nofun ps _ a.ty]
    exact congrArg _ (congrArg _ (congrArg _ (restore_constIf (p := .params) rest _)))

theorem legible_ofArgs {args : List ArgSig} (h : LegibleArgs doubled args) :
    Legible doubled (args.flatMap ofArg) := by
  intro t ht
  obtain ⟨a, ha, ht⟩ := List.mem_flatMap.mp ht
  have hc : Legible doubled (constIf a.readonly) := legible_ite (SigToken.legible_mark (by decide))
  have hr : Legible doubled (if a.lvalue then [.reference] else []) :=
    legible_ite (SigToken.legible_mark (by decide))
  have hall : Legible doubled (ofArg a) := by simp [ofArg, hc, hr, legible_ofType a.ty (h a ha)]
  exact hall t ht

theorem ofCall_eq (args : List ArgSig) :
    ofCall args = head ++ (args.flatMap ofArg ++ [.closeParen]) := by
  simp only [ofCall, head, List.append_assoc]

theorem readable_ofArgs {args : List ArgSig} (h : LegibleArgs doubled args) :
    Readable doubled [] (args.flatMap ofArg ++ [.closeParen]) where
  legible := by
    simpa [legible_ofArgs h] using SigToken.legible_mark (by decide)
  restored := by
    have hp := restore_ofArgs [] [] args
    rw [List.append_nil] at hp
    simp [restore, hp]

/-- Declared functions of one text have the same parameters as far as signatures tell. -/
theorem ofFunction_eq_of_text {f g : FunctionTy} (hf : legibleParams doubled f.params = true)
    (hg : legibleParams doubled g.params = true) (h : (ofFunction f).text = (ofFunction g).text) :
    ofFunction f = ofFunction g := by
  rw [ofFunction_eq, ofFunction_eq] at h ⊢
  rw [eq_of_text_head_eq (readable_ofParams hf) (readable_ofParams hg) h]

theorem ofCall_eq_of_text {args args' : List ArgSig} (ha : LegibleArgs doubled args)
    (ha' : LegibleArgs doubled args') (h : (ofCall args).text = (ofCall args').text) :
    ofCall args = ofCall args' := by
  rw [ofCall_eq, ofCall_eq] at h ⊢
  rw [eq_of_text_head_eq (readable_ofArgs ha) (readable_ofArgs ha') h]

end

end Signature

end Stepwise
