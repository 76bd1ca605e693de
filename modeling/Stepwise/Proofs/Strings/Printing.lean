import Stepwise.Proofs.Declarator.Resolving
import Stepwise.Proofs.Strings.Calls
import Stepwise.Proofs.Strings.Programs

/-! # Printed strings

A string that is written in a program, however it is split into literals, is printed as it is, and
its size is that of its text and a zero.
-/

namespace Stepwise

open RunM

namespace CallSpans

variable (a : CallSpans) (e : Expr)

/-- The function that the definition of `main` registers. -/
def entry : FunctionEntry := ⟨"main", .global, ⟨.int, [], false⟩, [], .defined (a.block e)⟩

variable {a e} {c : Config} {s t : State} {v : Value}

/-- `main` is defined where the types of the library are. -/
theorem defineFunction_main (htypedef : s.typedefs.lookup "int" = none)
    (hstruct : s.struct? "int" = none) (h : s.Lacks "main") :
    defineFunction (a.main e) .global c s = .ok () (s.withFunction (a.entry e)) := by
  have hbase : ReadM.baseType ⟨[], ["int"], a.spec⟩ (c, s) = .ok .int := by
    rw [ReadM.baseType]
    refine (ReadM.bind_ok (x := read) (a := (c, s)) rfl _).trans ?_
    simp only [List.find?_nil, htypedef, hstruct]
    rfl
  have hdeclared : ReadM.declared ⟨[], ["int"], a.spec⟩
      (.mk a.declarator [] false (.named "main") [.params [] false]) (c, s) =
        .ok ⟨some "main", .function ⟨.int, [], false⟩, false, false, false, []⟩ :=
    (ReadM.bind_ok hbase _).trans rfl
  rw [defineFunction]
  refine (bind_ok (ask_ok hdeclared)).trans ?_
  exact define_withFunction (e := a.entry e) rfl h

/-- The body evaluates the expression and returns zero. -/
theorem runsTo_block {s t : State} (he : (evaluate e none).RunsTo {}
      { s with scopes := s.scopes.push "CompoundStatement", cursor := some e.node } v t) :
    ∃ u, (RunM.execute (a.block e) false).RunsTo {} s (.returns (some (.int .int 0))) u ∧
      u.console = t.console := by
  let zero : Expr := .literal a.zero (.int 0 10 false false)
  let first : Stmt := .expression a.statement (some e)
  let second : Stmt := .returnJump a.returns (some zero)
  let s₁ : State := { s with scopes := s.scopes.push "CompoundStatement" }
  let s₂ : State := { t with cursor := s₁.cursor <|> some first.node }
  have hzero {u : State} : (evaluate zero none).RunsTo {} u (.int .int 0) u := .of_done rfl
  have hfirst : (RunM.execute first false).RunsTo {} { s₁ with cursor := some first.node } .normal
      { t with cursor := some first.node } := .visit he (.of_done rfl)
  have hsecond : (RunM.execute second false).RunsTo {} { s₂ with cursor := some second.node }
      (.returns (some (.int .int 0))) { s₂ with cursor := some second.node } :=
    .visit hzero (.of_done rfl)
  let s₃ : State := { s₂ with cursor := s₂.cursor <|> some second.node }
  have hblock : (runBlock false [first, second]).RunsTo {} s₁ (.returns (some (.int .int 0)))
      { s₃ with scopes := s₃.scopes.pop } := by
    refine .visitStmt hfirst ?_
    rw [resumeFrames_one]
    refine RunsTo.visitStmt hsecond ?_
    rw [resumeFrames_one]
    exact .of_done rfl
  exact ⟨_, .congr rfl hblock, rfl⟩

end CallSpans

/-- Wherever the names of the library are in reach, the expression writes the text. -/
def Expr.Writes (e : Expr) (out : String) : Prop :=
  ∀ s : State, (∀ g, s.Provides g) →
    ∃ r t, (evaluate e none).RunsTo {} s r t ∧ t.console = s.console.write out

theorem OperatorM.convert_self {v : Value} {target : Ty} (h : (v.ty == target) = true)
    (explicit : Bool) : OperatorM.convert v target explicit = pure v.rvalue := if_pos h

namespace CallSpans

variable {a : CallSpans} {e : Expr} {c : Config} {s : State} {out : String}

theorem convert_zero (ctx : OperatorContext) (h : Heap) :
    OperatorM.convert (.int .int 0) .int false ctx h = .ok (.int .int 0) h := by
  rw [OperatorM.convert_self (by decide +kernel)]
  rfl

theorem exitStatus_zero : exitStatus (.int .int 0) c s = .ok (.int .int 0) s := by
  rw [exitStatus]
  exact (bind_ok (operate_ok (convert_zero _ _))).trans rfl

theorem returned_zero :
    returned (a.entry e) (.returns (some (.int .int 0))) c s = .ok (.int .int 0) s := by
  have hcopy (ctx : OperatorContext) (h : Heap) :
      OperatorM.copy (.int .int 0) .int ctx h = .ok (.int .int 0) h := by
    simp only [OperatorM.copy, Bind.bind, ReaderT.bind, EStateM.bind, convert_zero]
    rfl
  exact operate_ok (hcopy _ _)

/-- A program begins with the library that it includes. -/
theorem begin_include (name : String) (items : List Stmt) (s : State) :
    begin ⟨[name], items⟩ {} s = (do loadLibrary name; runItems items) {} s := by
  have hbegin : begin ⟨[name], items⟩ {} s =
      ((forIn [name] PUnit.unit fun name _ => do
        loadLibrary name
        pure (.yield PUnit.unit)) >>= fun _ => runItems items) {} s := rfl
  rw [hbegin]
  simp only [List.forIn_cons, List.forIn_nil, bind_assoc, pure_bind]

theorem name_ne_main (g : StdioFunction) : g.name ≠ "main" := by cases g <;> decide

/-- `main` writes the text and gives zero. -/
theorem runsTo_callMain (he : e.Writes out) (hlibrary : ∀ g : StdioFunction, s.Exposes g.entry)
    (hmain : s.Exposes (a.entry e)) (hinner : s.scopes.inner = []) :
    ∃ t, callMain.RunsTo {} s (.int .int 0) t ∧ t.console = s.console.write out := by
  obtain ⟨f, hf, hty, hdata⟩ := value?_of_exposes hmain (by rw [hinner]; exact nofun)
  have hmatch : ({} : Config).numerics.matcher.matchFunction
      (.ofCall (([] : List Value).map Value.argument))
      (.ofFunction ⟨.int, [], false⟩) [] = some [] := by decide +kernel
  obtain ⟨id, tables, hid, hothers, hcall⟩ :=
    call_of_exposes (c := {}) hmain hty hdata hmatch
  let u : State := { s with tables }
  let body : State := { u with
    scopes := u.scopes.pushFrame ("function " ++ (a.entry e).name)
    cursor := some (a.block e).node }
  let inner : State := { body with
    scopes := body.scopes.push "CompoundStatement", cursor := some e.node }
  have hprovides (g : StdioFunction) : inner.Provides g := by
    have hexposes := hothers g.entry (name_ne_main g) (hlibrary g)
    refine ⟨⟨hexposes.named, hexposes.filed⟩, ?_⟩
    rintro scope (_ | ⟨_, _ | ⟨_, ⟨⟩⟩⟩) <;> rfl
  obtain ⟨v, t, ht, hconsole⟩ := he inner hprovides
  obtain ⟨w, hblock, hw⟩ := runsTo_block (a := a) (s := body) ht
  let ended : State := { w with cursor := u.cursor <|> some (a.block e).node }
  let left : State := { ended with scopes := ended.scopes.truncate u.scopes.depth }
  have hbody : (beginBody (a.entry e) none (a.block e) []).RunsTo {}
      { u with scopes := u.scopes.pushFrame ("function " ++ (a.entry e).name) }
      (.returns (some (.int .int 0))) ended :=
    .congr (y := visitStmt (a.block e) false .nil) rfl (.visitStmt hblock (.of_done rfl))
  have hend : (endCall (a.entry e) u.scopes.depth (.returns (some (.int .int 0)))).RunsTo {} ended
      (.int .int 0) left :=
    .bind (a := ()) rfl (.of_done (bind_ok returned_zero))
  have hcalled : (call f []).RunsTo {} s (.int .int 0) left := by
    refine .congr (hcall.trans ?_) (.enterBody hbody hend)
    rw [invoke]
    refine (bind_ok (function_eq (s := u) hid {})).trans ?_
    exact bind_ok (a := []) (t := u) rfl
  have hnamed : named (s.value? "main") "main" {} s = .ok f s := by
    have hvalue : s.value? "main" = some f := hf
    rw [hvalue]
    rfl
  have hmain : callMain.RunsTo {} s (.int .int 0) left := by
    refine .bind (x := get) (a := s) rfl ?_
    refine .bind hnamed (.andThen hcalled rfl (.of_done ?_))
    exact bind_ok exitStatus_zero
  exact ⟨left, hmain, hw.trans hconsole⟩

/-- A program whose expression writes a text runs to its end, writes the text and gives zero. -/
theorem steps_program (he : e.Writes out) (console : Console) (files : FileSystem) :
    ∃ m t, (Run.ofProgram {} (a.program e) console files).steps m = ⟨{}, t, .ended (.ok 0)⟩ ∧
      t.console = console.write out := by
  let s₀ : State := { console, files }
  have hfree (name : String) : s₀.Lacks name := ⟨rfl, rfl⟩
  obtain ⟨s, hload, hdefines⟩ :=
    loadLibrary_stdio (c := {}) "cstdio" (by decide) rfl fun g => hfree g.name
  have hlacks : s.Lacks "main" := by
    refine hdefines.lacks "main" ?_ ⟨rfl, rfl⟩
    rw [List.map_map]
    rintro hm
    obtain ⟨g, -, hg⟩ := List.mem_map.mp hm
    exact name_ne_main g hg
  let item : Stmt := .function a.definition (a.main e)
  let s₁ : State := { s with cursor := some item.node }
  have hlacks₁ : s₁.Lacks (a.entry e).name := ⟨hlacks.unbound, hlacks.unfiled⟩
  have hdefine : defineFunction (a.main e) .global {} s₁ = .ok () (s₁.withFunction (a.entry e)) := by
    refine defineFunction_main ?_ ?_ hlacks₁
    · exact (congrArg (List.lookup "int") hdefines.typedefs).trans rfl
    · exact (congrArg (List.lookup "int") hdefines.structs).trans rfl
  have hmain := hlacks₁.defines_withFunction
  let s₂ : State := { s₁.withFunction (a.entry e) with cursor := s.cursor <|> some item.node }
  have hlibrary (g : StdioFunction) : s₂.Exposes g.entry := by
    have hexposes := hdefines.exposes g.entry (List.mem_map_of_mem g.mem_all)
    have hother : g.entry.name ∉ [(a.entry e).name] := fun hm =>
      name_ne_main g (List.mem_singleton.mp hm)
    have hkept := hmain.keeps g.entry hother ⟨hexposes.named, hexposes.filed⟩
    exact ⟨hkept.named, hkept.filed⟩
  have hexposed := hmain.exposes (a.entry e) (.head _)
  have hinner : s₂.scopes.inner = [] := hmain.inner.trans hdefines.inner
  obtain ⟨t, ht, hconsole⟩ := runsTo_callMain he hlibrary ⟨hexposed.named, hexposed.filed⟩ hinner
  have hitems : (runItems [item]).RunsTo {} s (.int .int 0) t := by
    refine .visitStmt (v := .normal) (u := s₁.withFunction (a.entry e)) (.of_done ?_) ?_
    · exact bind_ok hdefine
    · rw [resumeFrames_one]
      exact ht
  have hbegin : (begin (a.program e)).RunsTo {} s₀ (.int .int 0) t :=
    .congr (begin_include "cstdio" [item] s₀) (.bind hload hitems)
  obtain ⟨m, hm⟩ := Run.steps_ofProgram hbegin
  have hsame : s₂.console = console := hmain.console.trans hdefines.console
  exact ⟨m, t, hm, hconsole.trans (by rw [hsame])⟩

end CallSpans

open Lexeme

namespace Program

/-- The text of a program is parsed, and the program runs to its end with the status zero and has
written the output. -/
def Prints (source out : String) : Prop :=
  ∃ p, parse source = .ok p ∧ ∀ console files, ∃ m,
    ((Run.ofProgram {} p console files).steps m).exitStatus? = some 0 ∧
      ((Run.ofProgram {} p console files).steps m).state.console.output = console.output ++ out

variable {name text out : String}

/-- A program prints what the call in it writes. -/
theorem prints_callText (args : List (Expr × List Lexeme)) (hname : isName name = true) (hfile : name ≠ "FILE")
    (htext : Scans text.toList ([symbol .comma].intercalate (args.map Prod.snd)))
    (hargs : ∀ a ∈ args, ReadsArgument ["FILE"] a.1 a.2)
    (hwrites : ∀ span span' es, es.map Expr.bare = (args.map Prod.fst).map Expr.bare →
      (Expr.call span (.identifier span' name) es).Writes out) :
    Prints (callText name text) out := by
  obtain ⟨a, e, hparse, hbare⟩ := parse_callText hname hfile htext hargs
  obtain ⟨span, callee, es, rfl, hcallee, hes⟩ := Expr.exists_of_bare_call hbare
  obtain ⟨span', rfl⟩ := Expr.exists_of_bare_identifier hcallee
  refine ⟨_, hparse, fun console files => ?_⟩
  obtain ⟨m, t, hsteps, hconsole⟩ := a.steps_program (hwrites span span' es hes) console files
  refine ⟨m, ?_, ?_⟩
  · rw [hsteps]
    rfl
  · rw [hsteps]
    exact congrArg Console.output hconsole

/-- A program prints what `printf` writes for a format and one more argument. -/
theorem prints_printf (format : List Char) {rest : List Char} {arg : Expr} {ls : List Lexeme}
    (harg : ReadsArgument ["FILE"] arg ls) (hrest : Scans rest ls)
    (htext : text.toList = Text.literal format ++ ([',', ' '] ++ rest))
    (hwrites : ∀ span span' formatSpan e, e.bare = arg.bare →
      (Expr.call span (.identifier span' "printf")
        [.literal formatSpan (.string (String.ofList format) .narrow), e]).Writes out) :
    Prints (callText "printf" text) out := by
  let piece : StringPiece := ⟨[], format, nofun⟩
  have hjoined : StringPiece.joined [piece] = format := by simp [StringPiece.joined, piece]
  have hformat : ReadsArgument ["FILE"] (StringPiece.expr [piece]) [piece.lexeme] :=
    readsArgument_pieces (List.cons_ne_nil _ _)
  have hscans : Scans text.toList ([piece.lexeme] ++ ([symbol .comma] ++ ls)) := by
    rw [htext]
    exact (Scans.literal format).append ((Scans.spelled (l := symbol .comma) trivial).append hrest)
  refine prints_callText [(StringPiece.expr [piece], [piece.lexeme]), (arg, ls)]
    (by decide) (by decide) (by simpa [List.intercalate] using hscans)
    (List.forall_mem_cons.mpr ⟨hformat, List.forall_mem_singleton.mpr harg⟩) ?_
  intro span span' es hes
  obtain ⟨e, es', rfl, he, hes'⟩ := List.map_eq_cons_iff.mp hes
  obtain ⟨e', es'', rfl, he', hnil⟩ := List.map_eq_cons_iff.mp hes'
  obtain rfl := List.map_eq_nil_iff.mp hnil
  obtain ⟨formatSpan, rfl⟩ := Expr.exists_of_bare_literal he
  rw [hjoined]
  exact hwrites span span' formatSpan e' he'

theorem scans_written (ps : List StringPiece) :
    Scans (StringPiece.written ps).toList (ps.map StringPiece.lexeme) := by
  rw [StringPiece.written, String.toList_ofList]
  exact .pieces ps

section Written

variable {cs : List Char} {ps : List StringPiece} (hcs : ∀ ch ∈ cs, Text.IsAscii ch) (hps : ps ≠ [])
  (hsplit : StringPiece.joined ps = cs)

include hcs hps hsplit

theorem prints_puts :
    Prints (callText "puts" (StringPiece.written ps)) (String.ofList cs ++ "\n") := by
  have htext := scans_written ps
  refine prints_callText [(StringPiece.expr ps, ps.map StringPiece.lexeme)] (by decide)
    (by decide) (by simpa [List.intercalate] using htext)
    (List.forall_mem_singleton.mpr (readsArgument_pieces hps)) ?_
  intro span span' es hes s hs
  obtain ⟨e, es', rfl, he, hnil⟩ := List.map_eq_cons_iff.mp hes
  obtain rfl := List.map_eq_nil_iff.mp hnil
  obtain ⟨argSpan, rfl⟩ := Expr.exists_of_bare_literal he
  rw [hsplit]
  exact evaluate_puts (hs .puts) hcs argSpan

theorem prints_printf_string :
    Prints (callText "printf" ("\"%s\", " ++ StringPiece.written ps)) (String.ofList cs) := by
  refine prints_printf ['%', 's'] (readsArgument_pieces hps) (scans_written ps)
    (String.toList_append.trans rfl) ?_
  intro span span' formatSpan e he s hs
  obtain ⟨argSpan, rfl⟩ := Expr.exists_of_bare_literal he
  rw [hsplit]
  exact evaluate_printf_string (hs .printf) hcs formatSpan argSpan

theorem prints_printf_size (hword : cs.length + 1 < pow2 64) :
    Prints (callText "printf" ("\"%zu\", sizeof " ++ StringPiece.written ps))
      (toString (cs.length + 1)) := by
  have hrest : Scans ("sizeof ".toList ++ (StringPiece.written ps).toList)
      (keyword .sizeofWord :: ps.map StringPiece.lexeme) :=
    (Scans.spelled (l := keyword .sizeofWord) trivial).append (scans_written ps)
  refine prints_printf ['%', 'z', 'u'] (readsArgument_size hps) hrest
    (String.toList_append.trans rfl) ?_
  intro span span' formatSpan e he s hs
  obtain ⟨sizeSpan, argSpan, rfl⟩ := Expr.exists_of_bare_size he
  rw [hsplit]
  exact evaluate_printf_size (hs .printf) hcs hword formatSpan sizeSpan argSpan

end Written

/-- A text of seven-bit characters other than zero survives from the source to the output, however
it is split into adjacent literals. `puts` prints it and a line break, `printf` prints it in place of
a field, and its size, which a machine word has to hold, is its length and one. -/
theorem written_string_survives {s : String} (hs : ∀ ch ∈ s.toList, Text.IsAscii ch)
    {ps : List StringPiece} (hps : ps ≠ []) (hsplit : StringPiece.joined ps = s.toList) :
    Prints (callText "puts" (StringPiece.written ps)) (s ++ "\n") ∧
      Prints (callText "printf" ("\"%s\", " ++ StringPiece.written ps)) s ∧
      (s.length + 1 < pow2 64 →
        Prints (callText "printf" ("\"%zu\", sizeof " ++ StringPiece.written ps))
          (toString (s.length + 1))) := by
  have hlength : s.toList.length = s.length := String.length_toList
  have hputs := prints_puts hs hps hsplit
  have hstring := prints_printf_string hs hps hsplit
  rw [String.ofList_toList] at hputs hstring
  refine ⟨hputs, hstring, fun hword => ?_⟩
  rw [← hlength] at hword ⊢
  exact prints_printf_size hs hps hsplit hword

/-- A quote, a backslash and a line break, in two literals. -/
theorem written_string_survives_escapes :
    let ps : List StringPiece := [⟨[], ['a', '"'], nofun⟩, ⟨[' '], ['\\', '\n'], by simp⟩]
    StringPiece.written ps = "\"a\\\"\" \"\\\\\\n\"" ∧
      Prints (callText "puts" (StringPiece.written ps)) "a\"\\\n\n" ∧
      Prints (callText "printf" ("\"%s\", " ++ StringPiece.written ps)) "a\"\\\n" ∧
      Prints (callText "printf" ("\"%zu\", sizeof " ++ StringPiece.written ps)) "5" := by
  intro ps
  have hs : ∀ ch ∈ "a\"\\\n".toList, Text.IsAscii ch := List.forall_iff_forall_mem.mp (by decide)
  have hps : ps ≠ [] := List.cons_ne_nil _ _
  obtain ⟨hputs, hstring, hsize⟩ := written_string_survives hs hps (by decide)
  exact ⟨by decide, hputs, hstring, hsize (by decide)⟩

end Program

end Stepwise
