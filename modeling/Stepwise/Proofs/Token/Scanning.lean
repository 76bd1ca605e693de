import Stepwise.Proofs.Token.Numerals
import Stepwise.Token.Lexer

/-! # Names

The words that a text may use as names of its own: identifiers that the language does
not reserve.
-/

namespace Stepwise.Lexeme

/-- The text is a word. -/
def isWord (text : String) : Bool :=
  match text.toList with
  | [] => false
  | c :: cs => isWordStart c && cs.all isWordPart

/-- The language keeps the word for itself. -/
def isReserved (word : String) : Bool :=
  (Keyword.ofWord? word).isSome || typeWords.contains word || specifierWords.contains word

/-- The text is an identifier, which is a word that is not reserved. -/
def isName (text : String) : Bool := isWord text && !isReserved text

theorem isWordPart_of_isWordStart {c : Char} (h : isWordStart c = true) : isWordPart c = true := by
  simp only [isWordStart, isWordPart, Char.isAlphanum, Bool.or_eq_true] at h ⊢
  exact h.imp_left .inl

section

variable {text : String}

theorem exists_of_isWord (h : isWord text = true) :
    ∃ c cs, text.toList = c :: cs ∧ isWordStart c = true ∧ cs.all isWordPart = true := by
  unfold isWord at h
  split at h
  · cases h
  · rename_i c cs hcs
    obtain ⟨hc, hp⟩ := Bool.and_eq_true_iff.mp h
    exact ⟨c, cs, hcs, hc, hp⟩

theorem isWord_of_isName (h : isName text = true) : isWord text = true :=
  (Bool.and_eq_true_iff.mp h).1

theorem ofWord_of_isName (h : isName text = true) : ofWord text = .identifier text := by
  have hr : isReserved text = false := by simpa using (Bool.and_eq_true_iff.mp h).2
  simp only [isReserved, Bool.or_eq_false_iff, Option.isSome_eq_false_iff,
    Option.isNone_iff_eq_none] at hr
  obtain ⟨⟨hk, ht⟩, hs⟩ := hr
  simp only [ofWord, hk, ht, hs, Bool.false_eq_true, if_false]

theorem ofWord_of_mem_typeWords (h : text ∈ typeWords) : ofWord text = typeWord text := by
  have hall : ∀ w ∈ typeWords, Keyword.ofWord? w = none := by decide
  rw [ofWord, hall text h, if_pos (List.contains_iff_mem.mpr h)]

theorem ne_of_isName (h : isName text = true) {word : String} (hw : isName word = false) :
    text ≠ word := by
  rintro rfl
  rw [h] at hw
  cases hw

/-- Characters that no word has are not in a word. -/
theorem notMem_of_isWord (h : isWord text = true) {c : Char} (hc : isWordPart c = false) :
    c ∉ text.toList := by
  obtain ⟨d, ds, htext, hd, hp⟩ := exists_of_isWord h
  have hall : (d :: ds).all isWordPart = true := by
    rw [List.all_cons, isWordPart_of_isWordStart hd, hp, Bool.and_self]
  intro hm
  rw [htext] at hm
  rw [List.all_eq_true.mp hall c hm] at hc
  cases hc

end

end Stepwise.Lexeme

/-! ## Scanning spaced lexemes

Lexemes written one after the other, with a blank between any two, are scanned as
themselves: no lexeme runs into the next, and none begins a comment or a directive.
-/

namespace Stepwise

open Text

namespace Lexeme

/-- The characters that write a lexeme; floats, characters and strings have no fixed ones. -/
def chars : Lexeme → List Char
  | int value radix unsigned long => numeral value radix unsigned long
  | identifier name => name.toList
  | typeWord word => word.toList
  | specifier word => word.toList
  | keyword k => k.text.toList
  | symbol s => s.chars
  | _ => []

/-- The lexeme is one that its characters write. -/
def IsSpelled : Lexeme → Prop
  | int value radix _ _ => radix ∈ radices ∧ value < pow2 128
  | identifier name => isName name = true
  | typeWord word => word ∈ typeWords
  | specifier word => word ∈ specifierWords
  | keyword _ => True
  | symbol _ => True
  | _ => False

/-- The text begins with a character that is neither blank nor the start of a comment or of a
directive. -/
def OpensLexeme : List Char → Prop
  | [] => False
  | c :: cs => c ∉ [' ', '\t', '\r', '\n', '#'] ∧ (c = '/' → ∀ d ∈ cs.head?, d ∉ ['/', '*'])

/-- Wherever a text goes on with the characters and then breaks off, `l` is its next lexeme. -/
structure Spells (cs : List Char) (l : Lexeme) : Prop where
  opens : ∀ tail, Breaks tail → OpensLexeme (cs ++ tail)
  next : ∀ (r : Reader) (tail : List Char) (hr : r.rest ≠ []), r.rest = cs ++ tail → Breaks tail →
    ∃ h, Lexeme.next r hr = .ok ⟨l, r.drop cs.length, h⟩

/-- What begins with a digit or a letter begins a lexeme. -/
theorem opensLexeme_of_isWordPart {c : Char} (h : isWordPart c = true) (cs : List Char) :
    OpensLexeme (c :: cs) := by
  have hall : ∀ d ∈ [' ', '\t', '\r', '\n', '#', '/'], isWordPart d = false :=
    List.forall_iff_forall_mem.mp (by decide)
  have hne : ∀ d ∈ [' ', '\t', '\r', '\n', '#', '/'], c ≠ d := by
    rintro d hd rfl
    rw [hall c hd] at h
    cases h
  refine ⟨fun hm => ?_, fun hc => absurd hc (hne '/' (by decide))⟩
  exact hne c (List.mem_append_left ['/'] hm) rfl

theorem isDigit_eq_false_of_isWordStart {c : Char} (h : isWordStart c = true) :
    c.isDigit = false := by
  simp only [isWordStart, Bool.or_eq_true, decide_eq_true_eq] at h
  obtain h | rfl := h
  · obtain h | h := Bool.or_eq_true_iff.mp (show (c.isUpper || c.isLower) = true from h)
    · have hupper : 'A'.val ≤ c.val ∧ c.val ≤ 'Z'.val := of_decide_eq_true h
      exact Bool.and_eq_false_imp.mpr fun _ => decide_eq_false (by grind)
    · have hlower : 'a'.val ≤ c.val ∧ c.val ≤ 'z'.val := by simpa using Bool.and_eq_true_iff.mp h
      exact Bool.and_eq_false_imp.mpr fun _ => decide_eq_false (by grind)
  · rfl

/-- A symbol begins with a mark that nothing else begins with, and no digit, solidus or star
follows it in the symbol. -/
theorem exists_chars (s : Symbol) :
    ∃ c cs, s.chars = c :: cs ∧ c ∉ [' ', '\t', '\r', '\n', '#', '"', '\''] ∧
      c.isDigit = false ∧ isWordStart c = false ∧ ∀ d ∈ cs, d.isDigit = false ∧ d ∉ ['/', '*'] := by
  cases s <;> exact ⟨_, _, rfl, by decide, by decide, by decide,
    List.forall_iff_forall_mem.mp (by decide)⟩

/-- A symbol that a blank ends is the longest that its text begins with. -/
theorem leading?_chars (s : Symbol) {tail : List Char} (ht : Breaks tail) :
    Symbol.leading? (s.chars ++ tail) = some s := by
  obtain rfl | ⟨ds, rfl⟩ := ht.cases <;> cases s <;> rfl

namespace IntegerText

variable (w : IntegerText)

theorem opensLexeme (tail : List Char) : OpensLexeme (w.chars ++ tail) := by
  obtain ⟨c, cs, hcs, hdigit⟩ := w.exists_chars
  rw [hcs, List.cons_append]
  exact opensLexeme_of_isWordPart (by simp [isWordPart, Char.isAlphanum, hdigit]) _

/-- The text of an integer is read as a number. -/
theorem next_eq_number {r : Reader} {tail : List Char} (hr : r.rest ≠ [])
    (hrest : r.rest = w.chars ++ tail) : Lexeme.next r hr = number r hr := by
  obtain ⟨c, cs, hcs, hdigit⟩ := w.exists_chars
  have hhead : r.rest.head hr = c := by simp only [hrest, hcs, List.cons_append, List.head_cons]
  have hquote : c ≠ '"' ∧ c ≠ '\'' := by
    constructor <;> (rintro rfl; cases hdigit)
  simp only [Lexeme.next, hhead, hquote, hdigit, if_false, Bool.true_or, if_true]

theorem spells (hv : w.value < pow2 128) : Spells w.chars w.lexeme := by
  refine ⟨fun tail _ => w.opensLexeme tail, fun r tail hr hrest ht => ?_⟩
  rw [w.next_eq_number hr hrest]
  exact (w.number_chars hrest ht hr).1 hv

end IntegerText

theorem spells_numeral {value radix : Nat} {unsigned long : Bool} (hradix : radix ∈ radices)
    (hv : value < pow2 128) :
    Spells (numeral value radix unsigned long) (int value radix unsigned long) := by
  obtain ⟨w, hchars, hlexeme⟩ := exists_numeral hradix value unsigned long
  have hvalue : w.value = value := (Lexeme.int.inj hlexeme).1
  rw [← hchars, ← hlexeme]
  exact w.spells (hvalue ▸ hv)

theorem spells_word {text : String} (htext : isWord text = true) :
    Spells text.toList (ofWord text) := by
  obtain ⟨c, cs, hcs, hstart, hparts⟩ := exists_of_isWord htext
  refine ⟨fun tail _ => ?_, fun r tail hr hrest ht => ?_⟩
  · rw [hcs, List.cons_append]
    exact opensLexeme_of_isWordPart (isWordPart_of_isWordStart hstart) _
  · have hhead : r.rest.head hr = c := by simp only [hrest, hcs, List.cons_append, List.head_cons]
    have hmark : c ≠ '"' ∧ c ≠ '\'' ∧ c ≠ '.' := by
      refine ⟨?_, ?_, ?_⟩ <;> (rintro rfl; cases hstart)
    have htake : (r.rest.drop 1).takeWhile isWordPart = cs := by
      rw [hrest, hcs, List.cons_append, List.drop_one, List.tail_cons]
      refine takeWhile_append_of_stop (List.all_eq_true.mp hparts) fun d hd => ?_
      rw [ht d hd]
      decide
    have hdrop : (r.drop (c :: cs).length).rest = tail := by
      simp only [Reader.drop, hrest, hcs]
      exact List.drop_left' rfl
    have hquote : (r.drop (c :: cs).length).rest.head? ≠ some '"' ∧
        (r.drop (c :: cs).length).rest.head? ≠ some '\'' := by
      rw [hdrop]
      constructor <;> (intro hh; cases ht _ hh)
    refine ⟨Reader.length_drop_lt (by simp [hcs]) hr, ?_⟩
    simp only [Lexeme.next, hhead, hmark, isDigit_eq_false_of_isWordStart hstart, if_false,
      Bool.false_or, decide_false, Bool.false_and, Bool.false_eq_true, hstart, if_true, word, htake]
    split
    case h_1 h => exact absurd h hquote.1
    case h_2 h => exact absurd h hquote.2
    case h_3 => simp only [← hcs, String.ofList_toList]

theorem spells_symbol (s : Symbol) : Spells s.chars (symbol s) := by
  obtain ⟨c, cs, hcs, hmark, hdigit, hstart, hrun⟩ := exists_chars s
  have hsecond (tail : List Char) (ht : Breaks tail) :
      ∀ d ∈ (cs ++ tail).head?, d.isDigit = false ∧ d ∉ ['/', '*'] := by
    intro d hd
    cases cs with
    | nil => rw [ht d hd]; decide
    | cons e cs => exact hrun d (by rw [← Option.some.inj hd]; exact List.mem_cons_self)
  refine ⟨fun tail ht => ?_, fun r tail hr hrest ht => ?_⟩
  · rw [hcs, List.cons_append]
    exact ⟨fun hm => hmark (List.mem_append_left ['"', '\''] hm),
      fun _ d hd => (hsecond tail ht d hd).2⟩
  · have hhead : r.rest.head hr = c := by simp only [hrest, hcs, List.cons_append, List.head_cons]
    have hquote : c ≠ '"' ∧ c ≠ '\'' := by
      constructor <;> (rintro rfl; exact hmark (by decide))
    have hpoint : (r.rest.drop 1).head?.any Char.isDigit = false := by
      rw [hrest, hcs, List.cons_append, List.drop_one, List.tail_cons, Option.any_eq_false]
      exact fun d hd => by simp [(hsecond tail ht d hd).1]
    have hlead : Symbol.leading? r.rest = some s := by rw [hrest, leading?_chars s ht]
    refine ⟨Reader.length_drop_lt (List.length_pos_iff.2 s.chars_ne_nil) hr, ?_⟩
    simp only [Lexeme.next, hhead, hquote, hdigit, hpoint, hstart, hlead, if_false, Bool.false_or,
      Bool.and_false, Bool.false_eq_true]

/-- Every spelled lexeme is read from its characters. -/
theorem spells_chars {l : Lexeme} (h : l.IsSpelled) : Spells l.chars l := by
  cases l with
  | int value radix unsigned long => exact spells_numeral h.1 h.2
  | identifier name =>
    have hw := spells_word (isWord_of_isName h)
    rwa [ofWord_of_isName h] at hw
  | typeWord word =>
    have hall : ∀ w ∈ typeWords, isWord w = true := by decide
    have hw := spells_word (hall word h)
    rwa [ofWord_of_mem_typeWords h] at hw
  | specifier word =>
    have hall : ∀ w ∈ specifierWords,
        isWord w = true ∧ Keyword.ofWord? w = none ∧ typeWords.contains w = false := by decide
    obtain ⟨hword, hkeyword, htype⟩ := hall word h
    have hw := spells_word hword
    rwa [ofWord, hkeyword, htype, if_pos (List.contains_iff_mem.mpr h)] at hw
  | keyword k =>
    have hw : Spells k.text.toList (ofWord k.text) := spells_word (by cases k <;> decide)
    rwa [ofWord, Keyword.ofWord?_text] at hw
  | symbol s => exact spells_symbol s
  | _ => cases h

end Lexeme

namespace Scan

theorem from_nil {r : Reader} (hrest : r.rest = []) :
    Scan.from r = ⟨[], .ok [⟨.endOfFile, .between r.position r.position⟩]⟩ := by
  rw [Scan.from]
  split
  · rfl
  · next h => rw [hrest] at h; cases h

theorem from_white {r : Reader} {c : Char} {cs : List Char} (hrest : r.rest = c :: cs)
    (hc : c ∈ [' ', '\t', '\r', '\n']) : Scan.from r = Scan.from (r.drop 1) := by
  rcases r with ⟨_, p⟩
  subst hrest
  simp only [List.mem_cons, List.not_mem_nil, or_false] at hc
  rw [Scan.from]
  rcases hc with rfl | rfl | rfl | rfl <;> rfl

/-- The scan of a text that begins with what was read. -/
def ofReading (r : Reader) : Except LexError (Reading r Lexeme) → Scan
  | .error e => ⟨[], .error e⟩
  | .ok x => { Scan.from x.next with
      tokens := (Scan.from x.next).tokens.map (⟨x.value, .between r.position x.next.position⟩ :: ·) }

/-- A text that opens with a lexeme is scanned by reading that lexeme. -/
theorem from_opens {r : Reader} (hr : r.rest ≠ []) (hopens : Lexeme.OpensLexeme r.rest) :
    Scan.from r = ofReading r (Lexeme.next r hr) := by
  rw [Scan.from]
  split
  · next hnil => exact absurd hnil hr
  · next c ds hcons =>
    rw [hcons] at hopens
    obtain ⟨hmark, hcomment⟩ := hopens
    simp only [List.mem_cons, List.not_mem_nil, or_false, not_or] at hmark
    obtain ⟨hspace, htab, hreturn, hline, hsign⟩ := hmark
    have hslash (d : Char) (hd : d ∈ ['/', '*']) : ¬ (c = '/' ∧ ds.head? = some d) :=
      fun hh => hcomment hh.1 d hh.2 hd
    have hone := hslash '/' (by decide)
    have htwo := hslash '*' (by decide)
    simp only [hspace, htab, hreturn, hline, hsign, decide_false, Bool.or_self, Bool.false_eq_true,
      if_false, Bool.and_eq_true, decide_eq_true_eq, hone, htwo]
    cases Lexeme.next r hr <;> rfl

/-- A lexeme at the start of a text is its first token. -/
theorem from_of_spells {r : Reader} {cs tail : List Char} {l : Lexeme} {ts : List Token}
    (h : Lexeme.Spells cs l) (hrest : r.rest = cs ++ tail) (ht : Breaks tail)
    (hts : Scan.from (r.drop cs.length) = ⟨[], .ok ts⟩) :
    Scan.from r =
      ⟨[], .ok (⟨l, .between r.position (r.drop cs.length).position⟩ :: ts)⟩ := by
  have hopens : Lexeme.OpensLexeme r.rest := by
    rw [hrest]
    exact h.opens tail ht
  have hr : r.rest ≠ [] := fun hnil => by rw [hnil] at hopens; cases hopens
  obtain ⟨hshorter, hnext⟩ := h.next r tail hr hrest ht
  rw [from_opens hr hopens, hnext, ofReading, hts]
  rfl

end Scan

/-- An integer literal is scanned as its number, unless it needs more than 128 bits. -/
theorem Lexeme.IntegerText.scan_chars (w : Lexeme.IntegerText) :
    (w.value < pow2 128 → ∃ ts, scan (String.ofList w.chars) = ⟨[], .ok ts⟩ ∧
        ts.map Token.lexeme = [w.lexeme, .endOfFile]) ∧
      (pow2 128 ≤ w.value → ∃ e, scan (String.ofList w.chars) = ⟨[], .error e⟩) := by
  have hrest : (Reader.ofText (String.ofList w.chars)).rest = w.chars ++ [] := by
    rw [List.append_nil]
    exact String.toList_ofList
  constructor
  · intro hv
    refine ⟨_, Scan.from_of_spells (w.spells hv) hrest (by simp [Breaks]) (Scan.from_nil ?_), rfl⟩
    rw [Reader.rest_drop, hrest]
    exact List.drop_left
  · intro hv
    have hopens : Lexeme.OpensLexeme (Reader.ofText (String.ofList w.chars)).rest := by
      rw [hrest]
      exact w.opensLexeme []
    have hr : (Reader.ofText (String.ofList w.chars)).rest ≠ [] := by
      intro hnil
      rw [hnil] at hopens
      cases hopens
    obtain ⟨e, he⟩ := (w.number_chars hrest (by simp [Breaks]) hr).2 hv
    refine ⟨e, ?_⟩
    rw [scan, Scan.from_opens hr hopens, w.next_eq_number hr hrest, he]
    rfl

/-- The characters of lexemes, with a blank between any two. -/
def Lexeme.spaced (ls : List Lexeme) : List Char := [' '].intercalate (ls.map Lexeme.chars)

/-- Spaced lexemes are scanned as themselves. -/
theorem Scan.from_spaced {r : Reader} {ls : List Lexeme} (hls : ∀ l ∈ ls, l.IsSpelled)
    (hrest : r.rest = Lexeme.spaced ls) :
    ∃ ts, Scan.from r = ⟨[], .ok ts⟩ ∧ ts.map Token.lexeme = ls ++ [.endOfFile] := by
  induction ls generalizing r with
  | nil => exact ⟨_, from_nil (by rw [hrest]; rfl), rfl⟩
  | cons l ls ih =>
    obtain ⟨hl, hls⟩ := List.forall_mem_cons.mp hls
    have hspells := Lexeme.spells_chars hl
    cases ls with
    | nil =>
      have hchars : r.rest = l.chars ++ [] := by
        rw [hrest, List.append_nil, Lexeme.spaced, List.map_singleton, List.intercalate_singleton]
      have hend : (r.drop l.chars.length).rest = [] := by simp [Reader.drop, hchars]
      exact ⟨_, from_of_spells hspells hchars (by simp [Breaks]) (from_nil hend), rfl⟩
    | cons m ls =>
      have hchars : r.rest = l.chars ++ ' ' :: Lexeme.spaced (m :: ls) := by
        rw [hrest, Lexeme.spaced, Lexeme.spaced, List.map_cons, List.map_cons,
          List.intercalate_cons_cons, List.append_assoc, List.singleton_append]
      have hblank : (r.drop l.chars.length).rest = ' ' :: Lexeme.spaced (m :: ls) := by
        simp [Reader.drop, hchars]
      obtain ⟨ts, hts, hmap⟩ := ih (r := (r.drop l.chars.length).drop 1) hls
        (by simp [Reader.drop, hchars])
      rw [← from_white hblank (by decide)] at hts
      exact ⟨_, from_of_spells hspells hchars (by simp [Breaks]) hts,
        by rw [List.map_cons, hmap]; rfl⟩

/-- A text of spaced lexemes has these as its tokens. -/
theorem scan_spaced {ls : List Lexeme} (hls : ∀ l ∈ ls, l.IsSpelled) :
    ∃ ts, scan (String.ofList (Lexeme.spaced ls)) = ⟨[], .ok ts⟩ ∧
      ts.map Token.lexeme = ls ++ [.endOfFile] :=
  Scan.from_spaced hls (String.toList_ofList)

end Stepwise
