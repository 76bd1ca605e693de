import Stepwise.Token.Lexer

/-! # Quoted literals are local

Two texts share a run if both begin with it. The second text ends where the two part: it
has a blank there or nothing. Whatever a scanner takes from the first text within the run
it takes from the second one too.

Escape sequences, strings and character literals are read off their own characters, in any
text that shares these.
-/

namespace Stepwise

namespace Text

/-- Nothing follows, or a space or a newline does. -/
def Ends (cs : List Char) : Prop := ∀ c ∈ cs.head?, c = ' ' ∨ c = '\n'

/-- `ds` begins as `cs` does, for at least `n` characters, and ends where the two part. -/
def Shares (n : Nat) (cs ds : List Char) : Prop :=
  ∃ run tail tail', cs = run ++ tail ∧ ds = run ++ tail' ∧ n ≤ run.length ∧ Ends tail'

section

variable {n k : Nat} {cs ds : List Char} {p : Char → Bool}

theorem Ends.takeWhile (h : Ends cs) (hspace : p ' ' = false) (hline : p '\n' = false) :
    cs.takeWhile p = [] := by
  cases cs with
  | nil => rfl
  | cons c cs =>
    have hc : p c = false := by rcases h c rfl with rfl | rfl <;> assumption
    rw [List.takeWhile_cons, hc]
    rfl

theorem Shares.refl (h : n ≤ cs.length) : Shares n cs cs :=
  ⟨cs, [], [], (List.append_nil _).symm, (List.append_nil _).symm, h, fun c hc => by cases hc⟩

theorem Shares.take_self (h : n ≤ cs.length) : Shares n cs (cs.take n) :=
  ⟨cs.take n, cs.drop n, [], (List.take_append_drop n cs).symm, (List.append_nil _).symm,
    by rw [List.length_take]; omega, fun c hc => by cases hc⟩

theorem Shares.of_append (run tail : List Char) {tail' : List Char} (h : Ends tail') :
    Shares run.length (run ++ tail) (run ++ tail') :=
  ⟨run, tail, tail', rfl, rfl, Nat.le_refl _, h⟩

theorem Shares.mono (h : Shares n cs ds) (hk : k ≤ n) : Shares k cs ds := by
  obtain ⟨run, tail, tail', hcs, hds, hn, ht⟩ := h
  exact ⟨run, tail, tail', hcs, hds, Nat.le_trans hk hn, ht⟩

theorem Shares.length_le (h : Shares n cs ds) : n ≤ ds.length := by
  obtain ⟨run, tail, tail', -, rfl, hn, -⟩ := h
  rw [List.length_append]
  omega

theorem Shares.drop (h : Shares (k + n) cs ds) : Shares n (cs.drop k) (ds.drop k) := by
  obtain ⟨run, tail, tail', rfl, rfl, hn, ht⟩ := h
  refine ⟨run.drop k, tail, tail', ?_, ?_, by rw [List.length_drop]; omega, ht⟩ <;>
    exact List.drop_append_of_le_length (by omega)

theorem Shares.take (h : Shares n cs ds) : ds.take n = cs.take n := by
  obtain ⟨run, tail, tail', rfl, rfl, hn, -⟩ := h
  rw [List.take_append_of_le_length hn, List.take_append_of_le_length hn]

theorem Shares.head? (h : Shares n cs ds) (hn : 0 < n) : ds.head? = cs.head? := by
  obtain ⟨run, tail, tail', rfl, rfl, hle, -⟩ := h
  cases run with
  | nil => exact absurd hle (by simp only [List.length_nil]; omega)
  | cons c run => rfl

/-- The texts go on with the same character, or `ds` has already ended. -/
theorem Shares.cases (h : Shares n cs ds) :
    (n = 0 ∧ Ends ds) ∨ ∃ c cs' ds', cs = c :: cs' ∧ ds = c :: ds' ∧ Shares (n - 1) cs' ds' := by
  obtain ⟨run, tail, tail', rfl, rfl, hn, ht⟩ := h
  cases run with
  | nil => exact .inl ⟨Nat.le_zero.mp hn, ht⟩
  | cons c run =>
    exact .inr ⟨c, run ++ tail, run ++ tail', rfl, rfl, run, tail, tail', rfl, rfl,
      Nat.sub_le_of_le_add hn, ht⟩

theorem Shares.trans {es : List Char} (h : Shares n cs ds) (h' : Shares n ds es) :
    Shares n cs es := by
  obtain ⟨run, tail, tail', rfl, rfl, hn, ht⟩ := h
  obtain ⟨run', mid, mid', hds, rfl, hn', ht'⟩ := h'
  obtain ⟨more, rfl, rfl⟩ | ⟨more, rfl, rfl⟩ := List.append_eq_append_iff.mp hds
  · -- `es` goes on beyond the point where `ds` has ended
    refine ⟨run, tail, more ++ mid', rfl, by rw [List.append_assoc], hn, fun c hc => ?_⟩
    cases more with
    | nil => exact ht' c hc
    | cons d more => exact ht c hc
  · exact ⟨run', more ++ tail, mid', by rw [List.append_assoc], rfl, hn', ht'⟩

/-- The first characters agree unless `ds` has already ended. -/
theorem Shares.head?_or (h : Shares n cs ds) : ds.head? = cs.head? ∨ Ends ds := by
  obtain ⟨run, tail, tail', rfl, rfl, -, ht⟩ := h
  cases run with
  | nil => exact .inr ht
  | cons c run => exact .inl rfl

theorem Shares.cons {c : Char} (h : Shares (n + 1) (c :: cs) ds) :
    ∃ ds', ds = c :: ds' ∧ Shares n cs ds' := by
  obtain ⟨run, tail, tail', hcs, rfl, hn, ht⟩ := h
  cases run with
  | nil => exact absurd hn (by simp)
  | cons d run =>
    obtain ⟨rfl, rfl⟩ := List.cons.inj hcs
    exact ⟨run ++ tail', rfl, run, tail, tail', rfl, rfl, Nat.le_of_succ_le_succ hn, ht⟩

/-- The beginning of a run is taken alike from texts that share it. -/
theorem Shares.take_takeWhile (hspace : p ' ' = false) (hline : p '\n' = false)
    (h : Shares ((cs.takeWhile p).take k).length cs ds) :
    (ds.takeWhile p).take k = (cs.takeWhile p).take k := by
  obtain ⟨run, tail, tail', rfl, rfl, hn, ht⟩ := h
  induction run generalizing k with
  | nil =>
    rw [List.nil_append, ht.takeWhile hspace hline, List.take_nil]
    exact (List.length_eq_zero_iff.mp (Nat.le_zero.mp hn)).symm
  | cons c run ih =>
    cases k with
    | zero => rfl
    | succ k =>
      simp only [List.cons_append, List.takeWhile_cons] at hn ⊢
      split
      · next hc =>
        rw [if_pos hc, List.take_succ_cons, List.length_cons, List.length_cons] at hn
        rw [List.take_succ_cons, List.take_succ_cons, ih (Nat.le_of_succ_le_succ hn)]
      · rfl

/-- A run is taken alike from texts that share it. -/
theorem Shares.takeWhile (hspace : p ' ' = false) (hline : p '\n' = false)
    (h : Shares (cs.takeWhile p).length cs ds) : ds.takeWhile p = cs.takeWhile p := by
  have htake := Shares.take_takeWhile (k := cs.length + ds.length) hspace hline
    (h.mono (List.length_take_le' _ _))
  have hcs : (cs.takeWhile p).length ≤ cs.length := (List.takeWhile_prefix p).length_le
  have hds : (ds.takeWhile p).length ≤ ds.length := (List.takeWhile_prefix p).length_le
  rwa [List.take_of_length_le (by omega), List.take_of_length_le (by omega)] at htake

end

end Text

namespace Reader

@[simp] theorem rest_drop (r : Reader) (n : Nat) : (r.drop n).rest = r.rest.drop n := rfl

theorem drop_drop (r : Reader) (n k : Nat) : (r.drop n).drop k = r.drop (n + k) := by
  simp only [drop, List.drop_drop, ← Position.after_append, ← List.take_add]

theorem drop_zero (r : Reader) : r.drop 0 = r := rfl

end Reader

end Stepwise

namespace Stepwise.Lexeme

open Text

variable {r r' start : Reader} {width : CharWidth}

/-- The reading succeeds with `value`, and ends at `s`. -/
def Gives {α : Type} (e : Except LexError (Reading r α)) (value : α) (s : Reader) : Prop :=
  ∃ x, e = .ok x ∧ x.value = value ∧ x.next = s

/-- An escape sequence is read off its own characters. -/
theorem escape_local {code : Nat} {s : Reader} (h : Gives (escape r) code s) :
    ∃ n, n ≤ r.rest.length ∧ s = r.drop n ∧
      ∀ r' : Reader, Shares n r.rest r'.rest → Gives (escape r') code (r'.drop n) := by
  obtain ⟨x, h, rfl, rfl⟩ := h
  rcases r with ⟨_ | ⟨c, cs⟩, p⟩
  case nil => cases h
  simp only [escape] at h
  split at h
  case h_1 code hcode =>
    cases h
    refine ⟨1, Nat.succ_le_succ (Nat.zero_le _), rfl, fun r' hs => ?_⟩
    obtain ⟨ds, q⟩ := r'
    obtain ⟨ds, rfl, hds⟩ := Shares.cons hs
    simp only [escape, hcode]
    exact ⟨_, rfl, rfl, rfl⟩
  case h_2 hcode =>
    split at h
    case isTrue hx =>
      split at h
      case h_2 => cases h
      case h_1 code hbits =>
        cases h
        refine ⟨(cs.takeWhile (isDigitIn 16)).length + 1, ?_, rfl, fun r' hs => ?_⟩
        · exact Nat.succ_le_succ (List.takeWhile_prefix _).length_le
        · obtain ⟨ds, q⟩ := r'
          obtain ⟨ds, rfl, hds⟩ := Shares.cons hs
          have hdigits := hds.takeWhile (by decide) (by decide)
          simp only [escape, hcode, if_pos hx, hdigits, hbits]
          exact ⟨_, rfl, rfl, rfl⟩
    case isFalse hx =>
      split at h
      case isFalse => cases h
      case isTrue hoctal =>
        cases h
        refine ⟨((cs.takeWhile (isDigitIn 8)).take 2).length + 1, ?_, rfl, fun r' hs => ?_⟩
        · exact Nat.succ_le_succ
            (Nat.le_trans (List.length_take_le' _ _) (List.takeWhile_prefix _).length_le)
        · obtain ⟨ds, q⟩ := r'
          obtain ⟨ds, rfl, hds⟩ := Shares.cons hs
          have hdigits := hds.take_takeWhile (by decide) (by decide)
          simp only [escape, hcode, if_neg hx, if_pos hoctal, hdigits]
          exact ⟨_, rfl, rfl, rfl⟩

/-- How a string literal goes on: it is closed, or an escape sequence or a plain character is
read and then the rest of it. -/
theorem gives_stringBody {text : List Char} {fewer} {l : Lexeme} {s : Reader} :
    Gives (stringBody start width r text fewer) l s ↔ ∃ c, r.rest.head? = some c ∧
      ((c = '"' ∧ l = .string (String.ofList text.reverse) width ∧ s = r.drop 1) ∨
      (c = '\\' ∧ ∃ code next fewer', Gives (escape (r.drop 1)) code next ∧
        Gives (stringBody start width next ((charOfCode? code).getD replacement :: text) fewer')
          l s) ∨
      (c ∉ ['"', '\n', '\\'] ∧ ∃ fewer',
        Gives (stringBody start width (r.drop 1) (c :: text) fewer') l s)) := by
  rcases r with ⟨_ | ⟨c, cs⟩, p⟩
  case nil =>
    rw [stringBody]
    simp [Gives]
  rw [stringBody]
  simp only [List.head?_cons, Option.some.injEq, exists_eq_left']
  by_cases hquote : c = '"'
  · subst hquote
    simp [Gives, eq_comm]
  by_cases hline : c = '\n'
  · subst hline
    simp [Gives]
  by_cases hslash : c = '\\'
  · subst hslash
    simp only [hquote, hline, if_false, if_true, false_and, false_or, true_and]
    cases hescape : escape (Reader.drop ⟨'\\' :: cs, p⟩ 1) with
    | error e => simp [Gives, Bind.bind, Except.bind]
    | ok y =>
      constructor
      · intro h
        exact .inl ⟨y.value, y.next, _, ⟨y, rfl, rfl, rfl⟩, h⟩
      · rintro (⟨_, _, fewer', ⟨_, ⟨⟩, rfl, rfl⟩, h⟩ | ⟨hm, -⟩)
        · exact h
        · exact absurd hm (by decide)
  · simp only [hquote, hline, hslash, if_false, false_and, false_or, List.mem_cons,
      List.not_mem_nil, or_false, not_false_eq_true, true_and]
    constructor
    · intro h
      exact ⟨_, h⟩
    · rintro ⟨fewer', h⟩
      exact h

/-- The rest of a string literal is read off its own characters. -/
theorem stringBody_local {text : List Char} {fewer} {l : Lexeme} {s : Reader}
    (h : Gives (stringBody start width r text fewer) l s) :
    ∃ n, n ≤ r.rest.length ∧ s = r.drop n ∧
      ∀ (start' r' : Reader) fewer', Shares n r.rest r'.rest →
        Gives (stringBody start' width r' text fewer') l (r'.drop n) := by
  induction hlen : r.rest.length using Nat.strongRecOn generalizing r text fewer with
  | ind len ih =>
  subst hlen
  obtain ⟨c, hc, hcases⟩ := gives_stringBody.mp h
  have hpos : 0 < r.rest.length := List.length_pos_of_mem (List.mem_of_mem_head? hc)
  have hhead {n : Nat} (hn : 0 < n) {r' : Reader} (hs : Shares n r.rest r'.rest) :
      r'.rest.head? = some c := by rw [hs.head? hn, hc]
  have hfewer (start' r' : Reader) (n : Nat) (h : r'.rest.length < start'.rest.length) :
      (r'.drop n).rest.length < start'.rest.length :=
    Nat.lt_of_le_of_lt (Reader.length_drop_le r' n) h
  obtain ⟨rfl, rfl, rfl⟩ | ⟨rfl, code, next, fewer', hescape, hrest⟩ | ⟨hplain, fewer', hrest⟩ := hcases
  · refine ⟨1, hpos, rfl, fun start' r' fewer' hs => ?_⟩
    exact gives_stringBody.mpr ⟨'"', hhead Nat.one_pos hs, .inl ⟨rfl, rfl, rfl⟩⟩
  · obtain ⟨n, hn, hnext, hlocal⟩ := escape_local hescape
    rw [Reader.drop_drop] at hnext
    subst hnext
    obtain ⟨k, hk, rfl, hlocal'⟩ := ih _ (Reader.length_drop_lt (by omega)
      (List.length_pos_iff.mp hpos)) hrest rfl
    rw [Reader.rest_drop, List.length_drop] at hn hk
    refine ⟨1 + n + k, by omega, Reader.drop_drop _ _ _, fun start' r' fewer' hs => ?_⟩
    have hgives := hlocal (r'.drop 1) (hs.mono (Nat.le_add_right _ k)).drop
    have hgives' := hlocal' start' (r'.drop (1 + n)) (hfewer start' r' _ fewer') hs.drop
    rw [Reader.drop_drop] at hgives
    rw [Reader.drop_drop] at hgives'
    exact gives_stringBody.mpr ⟨'\\', hhead (by omega) hs,
      .inr (.inl ⟨rfl, code, _, hfewer start' r' _ fewer', hgives, hgives'⟩)⟩
  · obtain ⟨k, hk, rfl, hlocal⟩ := ih _ (Reader.length_drop_lt Nat.one_pos
      (List.length_pos_iff.mp hpos)) hrest rfl
    rw [Reader.rest_drop, List.length_drop] at hk
    refine ⟨1 + k, by omega, Reader.drop_drop _ _ _, fun start' r' fewer' hs => ?_⟩
    have hgives := hlocal start' (r'.drop 1) (hfewer start' r' _ fewer') hs.drop
    rw [Reader.drop_drop] at hgives
    exact gives_stringBody.mpr ⟨c, hhead (by omega) hs,
      .inr (.inr ⟨hplain, hfewer start' r' _ fewer', hgives⟩)⟩

theorem exists_string {text : List Char} {fewer} {l : Lexeme} {s : Reader}
    (h : Gives (stringBody start width r text fewer) l s) : ∃ text, l = .string text width := by
  induction hlen : r.rest.length using Nat.strongRecOn generalizing r text fewer with
  | ind len ih =>
  subst hlen
  obtain ⟨c, hc, hcases⟩ := gives_stringBody.mp h
  have hpos : 0 < r.rest.length := List.length_pos_of_mem (List.mem_of_mem_head? hc)
  have hshorter : (r.drop 1).rest.length < r.rest.length :=
    Reader.length_drop_lt Nat.one_pos (List.length_pos_iff.mp hpos)
  obtain ⟨-, rfl, -⟩ | ⟨-, code, next, _, ⟨x, -, -, rfl⟩, hrest⟩ | ⟨-, _, hrest⟩ := hcases
  · exact ⟨_, rfl⟩
  · exact ih _ (Nat.lt_trans x.shorter hshorter) hrest rfl
  · exact ih _ hshorter hrest rfl

theorem gives_charClose {code : Nat} {fewer} {l : Lexeme} {s : Reader} :
    Gives (charClose start width code r fewer) l s ↔
      r.rest.head? = some '\'' ∧ l = .char code width ∧ s = r.drop 1 := by
  unfold charClose
  split
  · next h => simp [Gives, h, eq_comm]
  · next h => simp [Gives, h]

/-- How a character literal goes on: one character, escaped or plain, and the closing quote. -/
theorem gives_charLiteral {fewer} {l : Lexeme} {s : Reader} :
    Gives (charLiteral start width r fewer) l s ↔ ∃ c code next, r.rest.head? = some c ∧
      ((c = '\\' ∧ Gives (escape (r.drop 1)) code next) ∨
        (c ≠ '\\' ∧ code = c.toNat ∧ next = r.drop 1)) ∧
      next.rest.head? = some '\'' ∧ l = .char code width ∧ s = next.drop 1 := by
  rcases r with ⟨_ | ⟨c, cs⟩, p⟩
  case nil => simp [charLiteral, Gives]
  simp only [charLiteral, List.head?_cons, Option.some.injEq]
  by_cases hslash : c = '\\'
  · subst hslash
    simp only [if_true]
    cases hescape : escape (Reader.drop ⟨'\\' :: cs, p⟩ 1) with
    | error e => simp [Gives, Bind.bind, Except.bind]
    | ok y =>
      have hfewer : y.next.rest.length < start.rest.length :=
        Nat.lt_trans y.shorter (Nat.lt_of_le_of_lt (Reader.length_drop_le _ 1) fewer)
      change Gives (charClose start width y.value y.next hfewer) l s ↔ _
      rw [gives_charClose]
      constructor
      · intro h
        exact ⟨_, y.value, y.next, rfl, .inl ⟨rfl, y, rfl, rfl, rfl⟩, h⟩
      · rintro ⟨_, _, _, rfl, ⟨-, _, ⟨⟩, rfl, rfl⟩ | ⟨h, -⟩, hclose⟩
        · exact hclose
        · exact absurd rfl h
  · simp only [if_neg hslash]
    rw [gives_charClose]
    constructor
    · intro h
      exact ⟨c, _, _, rfl, .inr ⟨hslash, rfl, rfl⟩, h⟩
    · rintro ⟨_, _, _, rfl, ⟨rfl, -⟩ | ⟨-, rfl, rfl⟩, hclose⟩
      · exact absurd rfl hslash
      · exact hclose

/-- The rest of a character literal is read off its own characters. -/
theorem charLiteral_local {fewer} {l : Lexeme} {s : Reader}
    (h : Gives (charLiteral start width r fewer) l s) :
    ∃ n, n ≤ r.rest.length ∧ s = r.drop n ∧
      ∀ (start' r' : Reader) fewer', Shares n r.rest r'.rest →
        Gives (charLiteral start' width r' fewer') l (r'.drop n) := by
  obtain ⟨c, code, next, hc, hcode, hquote, rfl, rfl⟩ := gives_charLiteral.mp h
  have hpos : 0 < r.rest.length := List.length_pos_of_mem (List.mem_of_mem_head? hc)
  -- the character between the quotes, which both texts share with the quote after it
  obtain ⟨n, hn, rfl, hlocal⟩ : ∃ n, 0 < n ∧ next = r.drop n ∧ ∀ r' : Reader,
      Shares n r.rest r'.rest → (c = '\\' ∧ Gives (escape (r'.drop 1)) code (r'.drop n)) ∨
        (c ≠ '\\' ∧ code = c.toNat ∧ r'.drop n = r'.drop 1) := by
    obtain ⟨hslash, hescape⟩ | ⟨hslash, rfl, rfl⟩ := hcode
    · obtain ⟨n, hn, rfl, hlocal⟩ := escape_local hescape
      refine ⟨1 + n, by omega, Reader.drop_drop _ _ _, fun r' hs => .inl ⟨hslash, ?_⟩⟩
      rw [← Reader.drop_drop]
      exact hlocal (r'.drop 1) hs.drop
    · exact ⟨1, Nat.one_pos, rfl, fun r' hs => .inr ⟨hslash, rfl, rfl⟩⟩
  have hlen : n < r.rest.length := by
    have hne : 0 < (r.drop n).rest.length :=
      List.length_pos_of_mem (List.mem_of_mem_head? hquote)
    rw [Reader.rest_drop, List.length_drop] at hne
    omega
  refine ⟨n + 1, hlen, Reader.drop_drop _ _ _, fun start' r' fewer' hs => ?_⟩
  refine gives_charLiteral.mpr ⟨c, code, r'.drop n, ?_, hlocal r' (hs.mono (by omega)), ?_, rfl, ?_⟩
  · rw [hs.head? (Nat.succ_pos n), hc]
  · rw [Reader.rest_drop, hs.drop.head? Nat.one_pos]
    exact hquote
  · exact (Reader.drop_drop _ _ _).symm

end Stepwise.Lexeme
