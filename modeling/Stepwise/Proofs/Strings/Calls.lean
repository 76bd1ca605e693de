import Stepwise.Proofs.Operator.Offsets
import Stepwise.Proofs.Operator.Sizes
import Stepwise.Proofs.Overload.Exposing
import Stepwise.Proofs.Session.Evolution
import Stepwise.Proofs.Strings.Programs

/-! # Calls that print

A call of a library function evaluates its arguments, binds them as the overload says and writes to
the console. A literal reaches the function as a pointer to constant characters, or as it is where
the parameters are left open.
-/

namespace Stepwise

/-! ## Stored strings

A string literal is a block of characters with a zero at its end. A text that holds no zero of its
own is read back from the block, also through a pointer to constant characters.
-/

section Stored

namespace Text

/-- A character of seven bits that does not end a string. -/
def IsAscii (ch : Char) : Prop := ch.toNat ≠ 0 ∧ ch.toNat < 128

instance (ch : Char) : Decidable (IsAscii ch) := inferInstanceAs (Decidable (_ ∧ _))

/-- The cell of a character of a literal. -/
def cell (code : Int) : Value := (Value.int .char code).withReadonly true

/-- The cells of a literal. -/
def cells (cs : List Char) : List Value := cs.map (fun ch => cell ch.toNat) ++ [cell 0]

theorem length_cells (cs : List Char) : (cells cs).length = cs.length + 1 := by simp [cells]

/-- The characters are the cells before the first zero. -/
theorem takeWhile_cells {cs : List Char} (hcs : ∀ ch ∈ cs, IsAscii ch) :
    ((cells cs).map Value.int?).takeWhile (fun code => code.any (· != 0)) =
      cs.map fun ch => some (ch.toNat : Int) := by
  induction cs with
  | nil => rfl
  | cons ch cs ih =>
    obtain ⟨⟨hzero, -⟩, hcs⟩ := List.forall_mem_cons.mp hcs
    have hne : (some (ch.toNat : Int)).any (· != 0) = true := by simpa using hzero
    have hcons : (cells (ch :: cs)).map Value.int? =
        some (ch.toNat : Int) :: (cells cs).map Value.int? := rfl
    rw [hcons, List.takeWhile_cons_of_pos hne, ih hcs, List.map_cons]

theorem IsAscii.holds_char {ch : Char} (h : IsAscii ch) :
    ({} : LimitsTable).holds .char ch.toNat = true := by
  obtain ⟨-, hlt⟩ := h
  show (decide ((0 : Int) ≤ ch.toNat) && decide ((ch.toNat : Int) ≤ 0x7f)) = true
  simp only [Bool.and_eq_true, decide_eq_true_eq]
  omega

end Text

/-- The value is an array, or a pointer into one, that holds the text from its first cell on. -/
structure Value.Spells (h : Heap) (v : Value) (cs : List Char) : Prop where
  array : ∃ b, v.array? = some (b, 0) ∧ h.cells b = (Text.cells cs).toArray
  pointee : v.ty.pointee? = some .char

namespace Value.Spells

variable {h h' : Heap} {v : Value} {cs : List Char}

/-- A text that has no zero is what is read. -/
theorem charArray?_eq (hv : v.Spells h cs) (hcs : ∀ ch ∈ cs, Text.IsAscii ch) :
    h.charArray? v = some (String.ofList cs) := by
  obtain ⟨b, harray, hcells⟩ := hv.array
  have hcodes : (cs.map fun ch => some (ch.toNat : Int)).filterMap (fun code => code.bind fun n =>
      if n < 0 then none else Text.charOfCode? n.toNat) = cs := by
    have hback (ch : Char) : ((some (ch.toNat : Int)).bind fun n =>
        if n < 0 then none else Text.charOfCode? n.toNat) = some ch := by
      rw [Option.bind_some, if_neg (Int.not_lt.mpr (Int.natCast_nonneg _)), Int.toNat_natCast,
        Text.charOfCode?_toNat]
    rw [List.filterMap_map]
    exact (List.filterMap_congr fun ch _ => hback ch).trans List.filterMap_some
  rw [Heap.charArray?, harray, Option.bind_eq_bind, Option.bind_some]
  simp only [hv.pointee, Option.bind_eq_bind, Option.bind_some, hcells]
  show some (String.ofList ((((Text.cells cs).toArray.toList.drop 0).map Value.int?).takeWhile
    _ |>.filterMap _)) = _
  rw [List.drop_zero, Text.takeWhile_cells hcs, hcodes]

theorem stringAt_eq (hv : v.Spells h cs) (hcs : ∀ ch ∈ cs, Text.IsAscii ch) :
    h.stringAt v = .ok (String.ofList cs) := by
  rw [Heap.stringAt, hv.charArray?_eq hcs]

/-- What is written elsewhere leaves the text. -/
theorem mono (hv : v.Spells h cs) (hs : h.SameBut (fun _ _ => False) h') : v.Spells h' cs where
  array := by
    obtain ⟨b, harray, hcells⟩ := hv.array
    refine ⟨b, harray, ?_⟩
    have hlast : Text.cell 0 ∈ h.cells b := by simp [hcells, Text.cells]
    have hb := Heap.lt_size_of_mem_cells hlast
    refine Array.ext_getElem? fun i => ?_
    rw [hs.cells b hb i nofun, hcells]
  pointee := hv.pointee

theorem rvalue (hv : v.Spells h cs) : v.rvalue.Spells h cs := ⟨hv.array, hv.pointee⟩

end Value.Spells

namespace RunM

variable {c : Config} {s : State} {cs : List Char}

theorem stringCells_eq {limits : LimitsTable} {cs : List Char}
    (hcs : ∀ ch ∈ cs, limits.holds .char ch.toNat = true) :
    stringCells limits .char cs c s = .ok (Text.cells cs) s := by
  induction cs with
  | nil => rfl
  | cons ch cs ih =>
    obtain ⟨hch, hcs⟩ := List.forall_mem_cons.mp hcs
    have hcons : stringCells limits .char (ch :: cs) c s =
        (do return Text.cell ch.toNat :: (← stringCells limits .char cs)) c s := by
      simp only [stringCells, hch]
      rfl
    rw [hcons, bind_ok (ih hcs)]
    rfl

/-- A literal is a new block that holds its text. -/
theorem literal_string_eq (hcs : ∀ ch ∈ cs, c.limits.holds .char ch.toNat = true) :
    literal (.string (String.ofList cs) .narrow) c s =
      .ok (.ofArray (.array .char (cs.length + 1)) s.heap.blocks.size)
        { s with heap := (s.heap.alloc (Text.cells cs).toArray).2 } := by
  rw [literal]
  refine (bind_ok (x := read) (a := c) (t := s) rfl).trans ?_
  simp only [String.toList_ofList]
  refine (bind_ok (stringCells_eq hcs)).trans ?_
  rw [Text.length_cells]
  rfl

theorem spells_ofArray_alloc (h : Heap) (cs : List Char) :
    (Value.ofArray (.array .char (cs.length + 1)) h.blocks.size).Spells
      (h.alloc (Text.cells cs).toArray).2 cs where
  array := ⟨_, rfl, by rw [Heap.cells_alloc, if_pos rfl]⟩
  pointee := rfl

end RunM

end Stored

/-! ## Arguments and calls -/

theorem Heap.SameBut.load? {h h' : Heap} {p : Place} {v : Value}
    (hs : h.SameBut (fun _ _ => False) h') (hv : h.load? p = some v) : h'.load? p = some v := by
  obtain ⟨cell, hcell, rfl⟩ := Option.map_eq_some_iff.mp hv
  have hb := Heap.lt_size_of_mem_cells (Array.mem_of_getElem? hcell)
  rw [Heap.load?, hs.cells _ hb _ not_false, hcell]
  rfl

theorem State.Unwritten.withCursor {s t : State} (hs : s.Unwritten t) (node : Option Node) :
    s.Unwritten { t with cursor := node } :=
  ⟨hs.heap, congrArg (fun u : State => { u with cursor := node }) hs.rest⟩

theorem State.Exposes.unwritten {s t : State} {e : FunctionEntry} (h : s.Exposes e)
    (hs : s.Unwritten t) : t.Exposes e := by
  obtain ⟨p, v, hp, hv, hvalue⟩ := h.named
  have hload : t.heap.load? p = some v := hs.heap.load? hv
  rw [hs.rest]
  exact ⟨⟨p, v, hp, hload, hvalue⟩, h.filed⟩

/-- The name of a library function reaches it. -/
structure State.Provides (s : State) (g : StdioFunction) : Prop where
  exposed : s.Exposes g.entry
  visible : ∀ scope ∈ Scopes.frameScopes s.scopes.inner, scope.get? g.name = none

/-- An array converts to a pointer to its elements, which may be constant. -/
theorem OperatorM.copy_array (element : Ty) (n : Nat) (b : BlockId) (isConst : Bool)
    (ctx : OperatorContext) (h : Heap) :
    OperatorM.copy (.ofArray (.array element n) b) (.pointer element isConst) ctx h =
      .ok (.fresh (.pointer element isConst) (.array (some b) 0)) h := by
  have hne : (Ty.array element n == Ty.pointer element isConst) = false := by
    show Ty.beq _ _ = false
    simp only [Ty.beq]
  have hshape : (Ty.array element n).sameShape (.pointer element isConst) = true := by
    rw [Ty.sameShape, Ty.sameShape_refl]
  have hpointer : OperatorM.convertPointer (.ofArray (.array element n) b) (.pointer element isConst)
      false ctx h = .ok (.fresh (.pointer element isConst) (.array (some b) 0)) h := by
    simp only [OperatorM.convertPointer, Value.ofArray, Value.fresh, Data.isNull, hshape, Bool.or_true, if_true, pure_bind]
    rfl
  have hconvert : OperatorM.convert (.ofArray (.array element n) b) (.pointer element isConst) false
      ctx h = .ok (.fresh (.pointer element isConst) (.array (some b) 0)) h := by
    have hty : ¬((Value.ofArray (.array element n) b).ty == Ty.pointer element isConst) = true := by
      rw [show (Value.ofArray (.array element n) b).ty = .array element n from rfl, hne]
      exact Bool.false_ne_true
    rw [OperatorM.convert, if_neg hty]
    exact hpointer
  simp only [OperatorM.copy, Bind.bind, ReaderT.bind, EStateM.bind, hconvert]
  rfl

namespace RunM

variable {c : Config} {s u : State} {es : List Expr} {v f r : Value} {vs : List Value}

/-- The arguments of a call come to values one after the other. -/
inductive ArgumentsRunTo (c : Config) : State → List Expr → List Value → State → Prop
  | nil (s : State) : ArgumentsRunTo c s [] [] s
  | cons {s t u : State} {e : Expr} {es : List Expr} {v : Value} {vs : List Value} :
    (evaluate e none).RunsTo c { s with cursor := some e.node } v t →
    ArgumentsRunTo c { t with cursor := s.cursor <|> some e.node } es vs u →
    ArgumentsRunTo c s (e :: es) (v :: vs) u

/-- A function is called with the values of its arguments. -/
theorem ArgumentsRunTo.nextArgument (h : ArgumentsRunTo c s es vs u) {values : List Value}
    (hcall : (call f (values.reverse ++ vs)).RunsTo c u r t) :
    (nextArgument f values none es).RunsTo c s r t := by
  induction h generalizing values with
  | nil => rwa [List.append_nil] at hcall
  | cons he _ ih =>
    refine .visit he (ih ?_)
    rwa [List.reverse_cons, List.append_assoc]

/-- A call of a library function that its name reaches does what the function does with the
arguments bound to its parameters. -/
theorem runsTo_call_library {g : StdioFunction} {actions : List ArgAction} {bound : List Value}
    {span span' : Span} {console : Console} (hs : s.Provides g)
    (hargs : ArgumentsRunTo c
      { s with cursor := s.cursor <|> some (Expr.identifier span' g.name).node } es vs u)
    (hu : s.Unwritten u)
    (hmatch : c.numerics.matcher.matchFunction (.ofCall (vs.map Value.argument))
      (.ofFunction g.type) [] = some actions)
    (hbound : ∀ tables, boundArguments vs actions g.type.params c { u with tables } =
      .ok bound { u with tables })
    (hlibrary : ∀ tables, callLibrary g bound c { u with tables } =
      .ok (.done r) { u with tables, console }) :
    ∃ t, (evaluate (.call span (.identifier span' g.name) es) none).RunsTo c s r t ∧
      t.console = console := by
  obtain ⟨f, hf, hty, hdata⟩ := value?_of_exposes hs.exposed hs.visible
  have hexposes : u.Exposes g.entry := hs.exposed.unwritten hu
  obtain ⟨id, tables, hid, -, hcall⟩ := call_of_exposes hexposes hty hdata hmatch
  refine ⟨{ u with tables, console }, ?_, rfl⟩
  let s₀ : State := { s with cursor := some (Expr.identifier span' g.name).node }
  have hcallee : (evaluate (.identifier span' g.name) none).RunsTo c s₀ f s₀ := by
    refine .of_done ?_
    rw [evaluate]
    refine (bind_ok (x := get) (a := s₀) rfl).trans ?_
    have hvalue : s₀.value? g.name = some f := hf
    rw [hvalue]
    rfl
  refine .visit hcallee (hargs.nextArgument (.of_done ?_))
  rw [List.reverse_nil, List.nil_append, hcall, invoke]
  refine (bind_ok (function_eq (s := { u with tables }) hid c)).trans ?_
  refine (bind_ok (hbound tables)).trans ?_
  exact hlibrary tables

section Literals

variable {span span' : Span} {cs : List Char} {n : Nat} {b : BlockId}

theorem unwritten_alloc (s : State) (cells : Array Value) (node : Option Node) :
    s.Unwritten { s with heap := (s.heap.alloc cells).2, cursor := node } :=
  ⟨.alloc s.heap cells, rfl⟩

/-- A literal comes to an array that spells its text. -/
theorem RunsTo.literal_string (hcs : ∀ ch ∈ cs, c.limits.holds .char ch.toNat = true) :
    (evaluate (.literal span (.string (String.ofList cs) .narrow)) none).RunsTo c s
      (.ofArray (.array .char (cs.length + 1)) s.heap.blocks.size)
      { s with heap := (s.heap.alloc (Text.cells cs).toArray).2 } :=
  .of_done (bind_ok (literal_string_eq hcs))

/-- The size of a literal counts the zero at its end. -/
theorem RunsTo.sizeof_string (hcs : ∀ ch ∈ cs, c.limits.holds .char ch.toNat = true)
    (hchar : (c.limits.get .char).bytes = 1) (hword : cs.length + 1 < pow2 64) :
    ∃ t, (evaluate (.sizeofExpr span (.literal span' (.string (String.ofList cs) .narrow))) none).RunsTo
      c s (.int .int (cs.length + 1)) t ∧ s.Unwritten t := by
  have hsize : (Ty.array .char (cs.length + 1)).size? c.limits = some (cs.length + 1) := by
    show (some (c.limits.get .char).bytes).bind (fun bytes => Ty.word? ((cs.length + 1) * bytes)) = _
    rw [hchar, Option.bind_some, Nat.mul_one, Ty.word?, if_pos hword]
  let operand : Expr := .literal span' (.string (String.ofList cs) .narrow)
  refine ⟨_, .visit (.literal_string hcs) (.of_done ?_),
    unwritten_alloc s (Text.cells cs).toArray (s.cursor <|> some operand.node)⟩
  rw [resumeFrame]
  refine (sizeValue_eq _).trans ?_
  rw [show (Value.ofArray (.array .char (cs.length + 1)) s.heap.blocks.size).ty =
    .array .char (cs.length + 1) from rfl, hsize]
  rfl

/-- A literal is bound to a pointer to constant characters, and further arguments as they are. -/
theorem boundArguments_string {actions : List ArgAction} (vs : List Value) :
    boundArguments (.ofArray (.array .char n) b :: vs) (.cast :: actions) [.plain StdioFunction.string]
      c s = .ok (.fresh StdioFunction.string (.array (some b) 0) :: vs.map Value.rvalue) s := by
  have hrest (vs : List Value) (actions : List ArgAction) :
      boundArguments vs actions [] c s = .ok (vs.map Value.rvalue) s := by
    induction vs generalizing actions with
    | nil => rfl
    | cons v vs ih =>
      rw [boundArguments]
      exact bind_ok (ih actions.tail)
  have hcopy : operate (OperatorM.copy (.ofArray (.array .char n) b) StdioFunction.string) c s =
      .ok (.fresh StdioFunction.string (.array (some b) 0)) s :=
    operate_ok (OperatorM.copy_array .char n b true _ _)
  rw [boundArguments]
  refine (bind_ok hcopy).trans ?_
  exact bind_ok (hrest vs actions)

end Literals

section Library

variable {cs : List Char} {out : String}

theorem stringArgument_ok {text : String} (h : s.heap.stringAt v = .ok text) :
    stringArgument v c s = .ok text s := by
  rw [stringArgument]
  refine (bind_ok (x := inspect _) (a := s.heap.stringAt v) (t := s) rfl).trans ?_
  rw [h]
  rfl

theorem callLibrary_puts (hv : v.Spells s.heap cs) (hcs : ∀ ch ∈ cs, Text.IsAscii ch) :
    callLibrary .puts [v] c s = .ok (.done (.int .int 1))
      { s with console := s.console.write (String.ofList cs ++ "\n") } := by
  rw [callLibrary]
  exact bind_ok (stringArgument_ok (hv.stringAt_eq hcs))

/-- What `printf` does with a format that can be read. -/
theorem callLibrary_printf_eq {format : String} (hv : s.heap.stringAt v = .ok format) :
    callLibrary .printf (v :: vs) c s = (do
      let out ← ofLibrary (Format.expand s.heap c.limits format vs)
      writeConsole out
      intResult out.length) c s := by
  rw [callLibrary]
  exact bind_ok (stringArgument_ok hv)

theorem callLibrary_printf (hv : v.Spells s.heap cs) (hcs : ∀ ch ∈ cs, Text.IsAscii ch)
    (hout : Format.expand s.heap c.limits (String.ofList cs) vs = .ok out) :
    callLibrary .printf (v :: vs) c s = .ok (.done (.int .int out.length))
      { s with console := s.console.write out } := by
  rw [callLibrary_printf_eq (hv.stringAt_eq hcs), hout]
  rfl

/-- The format that consists of a field for a string gives the string. -/
theorem expand_string {h : Heap} (limits : LimitsTable) (hv : v.Spells h cs)
    (hcs : ∀ ch ∈ cs, Text.IsAscii ch) :
    Format.expand h limits (String.ofList ['%', 's']) [v] = .ok (String.ofList cs) := by
  have hfield : Format.fieldText h limits {} 's' v = .ok cs := by
    simp [Format.fieldText, hv.stringAt_eq hcs, Format.Field.pad]
  have hpieces : Format.pieces none (String.ofList ['%', 's']).toList = [.field {} 's'] := by decide
  rw [Format.expand, hpieces, Format.render, hfield]
  rfl

/-- The format that consists of a field for a size gives its digits. -/
theorem expand_size (h : Heap) (limits : LimitsTable) (n : Nat) :
    Format.expand h limits (String.ofList ['%', 'z', 'u']) [.int .int n] = .ok (toString n) := by
  have hfield : Format.fieldText h limits {} 'u' (.int .int n) = .ok (Nat.toDigits 10 n) := by
    simp [Format.fieldText, Format.Field.pad]
    rfl
  have hpieces : Format.pieces none (String.ofList ['%', 'z', 'u']).toList = [.field {} 'u'] := by
    decide
  rw [Format.expand, hpieces, Format.render, hfield]
  rfl

end Library

section Evaluation

variable {span span' : Span} {cs : List Char}

theorem holds_char_of_isAscii (hcs : ∀ ch ∈ cs, Text.IsAscii ch) :
    ∀ ch ∈ cs, ({} : Config).limits.holds .char ch.toNat = true :=
  fun ch hm => (hcs ch hm).holds_char

theorem spells_pointer {h : Heap} {n : Nat} {b : BlockId}
    (hb : (Value.ofArray (.array .char n) b).Spells h cs) :
    (Value.fresh StdioFunction.string (.array (some b) 0)).Spells h cs := ⟨hb.array, rfl⟩

/-- The string is printed with a line break after it. -/
theorem evaluate_puts (hs : s.Provides .puts) (hcs : ∀ ch ∈ cs, Text.IsAscii ch) (span'' : Span) :
    ∃ r t, (evaluate (.call span (.identifier span' "puts")
        [.literal span'' (.string (String.ofList cs) .narrow)]) none).RunsTo {} s r t ∧
      t.console = s.console.write (String.ofList cs ++ "\n") := by
  let s₀ : State := { s with cursor := s.cursor <|> some (Expr.identifier span' "puts").node }
  let e : Expr := .literal span'' (.string (String.ofList cs) .narrow)
  let u : State := { s₀ with
    heap := (s.heap.alloc (Text.cells cs).toArray).2, cursor := s₀.cursor <|> some e.node }
  have hargs : ArgumentsRunTo {} s₀ [e]
      [.ofArray (.array .char (cs.length + 1)) s.heap.blocks.size] u :=
    .cons (.literal_string (holds_char_of_isAscii hcs)) (.nil _)
  have hmatch : ({} : Config).numerics.matcher.matchFunction
      [.function, .result, .openParen, .name "char", .pointer, .closeParen]
      (.ofFunction StdioFunction.puts.type) [] = some [.cast] := by decide +kernel
  have hspells := spells_pointer (spells_ofArray_alloc s.heap cs)
  exact ⟨_, runsTo_call_library (g := .puts) hs hargs (unwritten_alloc s _ _) hmatch
    (fun _ => boundArguments_string []) fun _ => callLibrary_puts hspells hcs⟩

/-- The string is printed in place of the field of the format. -/
theorem evaluate_printf_string (hs : s.Provides .printf) (hcs : ∀ ch ∈ cs, Text.IsAscii ch)
    (formatSpan argSpan : Span) :
    ∃ r t, (evaluate (.call span (.identifier span' "printf")
        [.literal formatSpan (.string (String.ofList ['%', 's']) .narrow),
          .literal argSpan (.string (String.ofList cs) .narrow)]) none).RunsTo {} s r t ∧
      t.console = s.console.write (String.ofList cs) := by
  have hformat : ∀ ch ∈ ['%', 's'], Text.IsAscii ch := List.forall_iff_forall_mem.mp (by decide)
  let s₀ : State := { s with cursor := s.cursor <|> some (Expr.identifier span' "printf").node }
  let format : Expr := .literal formatSpan (.string (String.ofList ['%', 's']) .narrow)
  let e : Expr := .literal argSpan (.string (String.ofList cs) .narrow)
  let t : State := { s₀ with
    heap := (s.heap.alloc (Text.cells ['%', 's']).toArray).2
    cursor := s₀.cursor <|> some format.node }
  let u : State := { t with
    heap := (t.heap.alloc (Text.cells cs).toArray).2, cursor := t.cursor <|> some e.node }
  have hargs : ArgumentsRunTo {} s₀ [format, e] [.ofArray (.array .char 3) s.heap.blocks.size,
      .ofArray (.array .char (cs.length + 1)) t.heap.blocks.size] u :=
    .cons (.literal_string (holds_char_of_isAscii hformat))
      (.cons (.literal_string (holds_char_of_isAscii hcs)) (.nil _))
  have hmatch : ({} : Config).numerics.matcher.matchFunction
      [.function, .result, .openParen, .name "char", .pointer, .name "char", .pointer, .closeParen]
      (.ofFunction StdioFunction.printf.type) [] = some [.cast, .copy] := by decide +kernel
  have hu : s.Unwritten u := (unwritten_alloc s _ _).trans (unwritten_alloc t _ _)
  have hspells : (Value.ofArray (.array .char 3) s.heap.blocks.size).Spells u.heap ['%', 's'] :=
    (spells_ofArray_alloc s.heap ['%', 's']).mono (.alloc t.heap _)
  have hout := expand_string {} (spells_ofArray_alloc t.heap cs).rvalue hcs
  exact ⟨_, runsTo_call_library (g := .printf) hs hargs hu hmatch
    (fun _ => boundArguments_string [_])
    fun _ => callLibrary_printf (spells_pointer hspells) hformat hout⟩

/-- The number of characters is printed, with the zero at the end counted. -/
theorem evaluate_printf_size (hs : s.Provides .printf) (hcs : ∀ ch ∈ cs, Text.IsAscii ch)
    (hword : cs.length + 1 < pow2 64) (formatSpan sizeSpan argSpan : Span) :
    ∃ r t, (evaluate (.call span (.identifier span' "printf")
        [.literal formatSpan (.string (String.ofList ['%', 'z', 'u']) .narrow),
          .sizeofExpr sizeSpan (.literal argSpan (.string (String.ofList cs) .narrow))])
          none).RunsTo {} s r t ∧
      t.console = s.console.write (toString (cs.length + 1)) := by
  have hformat : ∀ ch ∈ ['%', 'z', 'u'], Text.IsAscii ch :=
    List.forall_iff_forall_mem.mp (by decide)
  let s₀ : State := { s with cursor := s.cursor <|> some (Expr.identifier span' "printf").node }
  let format : Expr := .literal formatSpan (.string (String.ofList ['%', 'z', 'u']) .narrow)
  let e : Expr := .sizeofExpr sizeSpan (.literal argSpan (.string (String.ofList cs) .narrow))
  let t : State := { s₀ with
    heap := (s.heap.alloc (Text.cells ['%', 'z', 'u']).toArray).2
    cursor := s₀.cursor <|> some format.node }
  let entered : State := { t with cursor := some e.node }
  obtain ⟨w, hsize, hw⟩ : ∃ w, (evaluate e none).RunsTo {} entered (.int .int (cs.length + 1)) w ∧
      entered.Unwritten w := RunsTo.sizeof_string (holds_char_of_isAscii hcs) rfl hword
  let u : State := { w with cursor := t.cursor <|> some e.node }
  have hargs : ArgumentsRunTo {} s₀ [format, e] [.ofArray (.array .char 4) s.heap.blocks.size,
      .int .int (cs.length + 1)] u :=
    .cons (.literal_string (holds_char_of_isAscii hformat)) (.cons hsize (.nil _))
  have hmatch : ({} : Config).numerics.matcher.matchFunction
      [.function, .result, .openParen, .name "char", .pointer, .name "int", .closeParen]
      (.ofFunction StdioFunction.printf.type) [] = some [.cast, .copy] := by decide +kernel
  have hu : t.Unwritten u := ⟨hw.heap, (hw.withCursor (t.cursor <|> some e.node)).rest⟩
  have hspells : (Value.ofArray (.array .char 4) s.heap.blocks.size).Spells u.heap ['%', 'z', 'u'] :=
    (spells_ofArray_alloc s.heap ['%', 'z', 'u']).mono hu.heap
  have hconsole : u.console = s.console := by rw [hu.rest]
  rw [← hconsole]
  exact ⟨_, runsTo_call_library (g := .printf) hs hargs ((unwritten_alloc s _ _).trans hu) hmatch
    (fun _ => boundArguments_string [_])
    fun _ => callLibrary_printf (spells_pointer hspells) hformat (expand_size u.heap {} _)⟩

end Evaluation

end RunM

end Stepwise
