import Stepwise.Machine.Call
import Stepwise.Machine.Make
import Stepwise.Proofs.Locality.Mirrors
import Stepwise.Proofs.Overload.Tables
import Stepwise.Stdio.Library

/-! # Functions and libraries in other surroundings

Registering functions and calling those of a library looks up no names and leaves the
scopes as they are, except that the names of functions enter the global scope.
-/

namespace Stepwise

/-! ## Making objects in other surroundings

An object is made from its initializers without any change of the scopes. The names in
the initializers are looked up when these are visited.
-/

section Making

open RunM

namespace Surroundings

variable {E : Surroundings} {s t : State} {b : Footing}

theorem follows_finish (hs : b.Allows s) (f : Filling) (made : Array Value) :
    E.Follows b s (finish f made) :=
  .bind (local_alloc made) fun _ _ ht => .pure rfl (hs.keeps ht)

section Fill

variable {make : Making → RunM (Progress .value)} (ha : E.Admits b.start)
  (hm : ∀ m t, b.Allows t → E.Follows b t (make m))

include ha hm

theorem follows_fillDefaults (f : Filling) (count : Nat) (made : Array Value) (hs : b.Allows s) :
    E.Follows b s (fillDefaults make f count made) := by
  induction count generalizing s made with
  | zero => exact follows_finish hs f made
  | succ n ih =>
    refine .bind_lift (hm _ s hs) fun p t hp => ?_
    cases p with
    | paused p path => exact mirrors_paused hp ⟨ha, nofun, .refl b⟩
    | done v => exact .ite (follows_finish hp f _) (ih _ hp)

theorem follows_fillNext (f : Filling) (next : List Making) (made : Array Value)
    (hs : b.Allows s) : E.Follows b s (fillNext make f next made) := by
  induction next generalizing s made with
  | nil => exact follows_fillDefaults ha hm f f.defaults made hs
  | cons m rest ih =>
    refine .bind_lift (hm m s hs) fun p t hp => ?_
    cases p with
    | paused p path => exact mirrors_paused hp ⟨ha, nofun, .refl b⟩
    | done v => exact ih _ hp

theorem follows_fillArray (ty element : Ty) (size : Nat) (items : List Initializer)
    (readonly : Bool) (hint : Option StructTy) (outermost : Bool) (hs : b.Allows s) :
    E.Follows b s (fillArray make ty element size items readonly hint outermost) := by
  unfold fillArray
  refine .check .fail ?_
  dsimp only
  split
  · exact follows_visit _ hint (ha.allows hs) rfl (.one ⟨ha, nofun, .of_allows hs⟩)
  · exact follows_fillNext ha hm _ _ _ hs

end Fill

theorem local_elementsFrom (v : Value) : E.Local s (elementsFrom v) fun _ t => t = s := by
  unfold elementsFrom
  split
  · exact (local_inspect rfl).mono fun _ _ h => h.2
  · exact .query_bind (local_text v) fun _ => .fail

section Make

variable (ha : E.Admits b.start)

include ha

theorem follows_makeWithin (depth : Nat) (m : Making) (hs : b.Allows s) :
    E.Follows b s (makeWithin depth m) := by
  induction depth generalizing s m with
  | zero => exact .fail
  | succ depth ih =>
    have hm (m : Making) (t : State) (ht : b.Allows t) : E.Follows b t (makeWithin depth m) :=
      ih m ht
    have hfill (f : Filling) (next : List Making) (made : Array Value) :
        E.Follows b s (fillNext (makeWithin depth) f next made) :=
      follows_fillNext ha hm f next made hs
    cases m with
    | default ty readonly =>
      cases ty with
      | arith k => exact .pure rfl hs
      | array element size => exact hfill _ _ _
      | pointer _ _ | functionPointer _ => exact .pure rfl hs
      | struct name fields => exact .inspect_bind rfl (hm _ s hs)
      | void => exact .pure rfl hs
      | function _ | marker => exact .fail
    | initial ty init readonly hint =>
      cases init with
      | expr e =>
        simp only [makeWithin]
        refine .ite ?_ ?_
        · exact follows_visit e hint (ha.allows hs) rfl (.one ⟨ha, nofun, .of_allows hs⟩)
        · refine .inspect_bind rfl ?_
          exact follows_visit e _ (ha.allows hs) rfl (.one ⟨ha, nofun, .of_allows hs⟩)
      | list span items =>
        simp only [makeWithin]
        split
        · exact follows_fillArray ha hm _ _ _ _ _ _ _ hs
        · exact .inspect_bind rfl (hm _ s hs)
        · exact hm _ s hs
        · exact hm _ s hs
        · exact .fail
        · exact .fail
    | row ty items readonly hint =>
      cases ty with
      | array element size => exact follows_fillArray ha hm _ _ _ _ _ _ _ hs
      | _ => exact .fail
    | struct d items readonly hint =>
      simp only [makeWithin]
      exact .check .fail (hfill _ _ _)
    | copy ty v readonly =>
      exact .bind (local_operate (OperatorM.closed_conservative.copy v ty)) fun _ t ht =>
        .pure rfl (hs.keeps ht)
    | arrayOf ty v readonly =>
      cases ty with
      | array element size =>
        refine .query_bind (local_elementsFrom v) fun source => .check .fail ?_
        exact hfill _ _ _
      | _ => exact .fail
    | nested => exact .fail

theorem follows_make (m : Making) (hs : b.Allows s) : E.Follows b s (make m) :=
  .inspect_bind rfl (follows_makeWithin ha _ m hs)

theorem follows_resumeFilling (f : Filling) (v : Value) (hs : b.Allows s) :
    E.Follows b s (resumeFilling f v) :=
  follows_fillNext ha (fun m _ => follows_make ha m) _ _ _ hs

theorem follows_makeArrayFrom (ty : Ty) (readonly : Bool) (v : Value) (hs : b.Allows s) :
    E.Follows b s (makeArrayFrom ty readonly v) := by
  refine .ite ?_ (follows_make ha _ hs)
  exact .query_bind (local_text v) fun _ => .fail_bind

theorem follows_makeOpen (element : Ty) (readonly : Bool) (v : Value) (hs : b.Allows s) :
    E.Follows b s (makeOpen element readonly v) :=
  .query_bind (local_elementsFrom v) fun _ => follows_make ha _ hs

end Make

theorem local_storeIntoFirst (v : Value) (readonly : Bool) :
    (ty : Ty) → (array : Value) →
      E.Local s (storeIntoFirst v readonly ty array) fun _ t => s.Keeps t
  | .array element _, array => by
    unfold storeIntoFirst
    split
    · exact .pure rfl (.refl s)
    · refine .inspect_bind rfl ?_
      split
      · exact .pure rfl (.refl s)
      · refine .ite (local_storeIntoFirst v readonly element _) ?_
        refine .bind (local_operate ?_) fun _ t ht => ?_
        · exact OperatorM.closed_conservative.convert v _ false
        exact .discard ((local_onHeap _).mono fun _ _ hu => ht.keeps hu)
  | .void, _ | .arith _, _ | .pointer .., _ | .struct .., _ => .pure rfl (.refl s)
  | .functionPointer _, _ | .function _, _ | .marker, _ => .pure rfl (.refl s)

theorem follows_storeFirst (v : Value) (readonly : Bool) (array : Value) (hs : b.Allows s) :
    E.Follows b s (storeFirst v readonly array) :=
  .bind (local_storeIntoFirst v readonly array.ty array) fun _ _ ht => .pure rfl (hs.keeps ht)

theorem follows_makeSingle (ha : E.Admits b.start) (ty : Ty) (readonly : Bool) (v : Value)
    (hs : b.Allows s) : E.Follows b s (makeSingle ty readonly v) := by
  cases ty with
  | array element size =>
    refine .ite ?_ (.ite ?_ ?_)
    · exact follows_fillNext ha (fun m _ => follows_make ha m) _ _ _ hs
    · refine .bind_lift (follows_make ha _ hs) fun p t hp => ?_
      exact mirrors_andThen hp ⟨ha, nofun, .refl b⟩ fun r hr => follows_storeFirst v readonly r hr
    · exact .query_bind (local_text v) fun _ => .fail
  | _ => exact .fail

end Surroundings

end Making

/-! ## Functions and libraries -/

namespace State

variable {s : State} {tables : OwnerTables}

/-- Tables that lose no name are a change that the scopes do not notice. -/
theorem Keeps.of_tables {t : State} (hs : t.scopes = s.scopes)
    (ht : ∀ name, s.IsFunctionName name → t.IsFunctionName name) : s.Keeps t where
  inner := ⟨[], rfl, by rw [hs, List.nil_append]⟩
  functions := ⟨ht, [], by rw [hs, Scope.extend_nil], fun e he => nomatch he⟩

theorem Keeps.defineGlobal {name : String} (h : s.IsFunctionName name) (p : Place) :
    s.Keeps { s with scopes := s.scopes.defineGlobal name p } := by
  unfold Scopes.defineGlobal
  split
  · exact .refl s
  · refine ⟨⟨[], rfl, rfl⟩, fun _ hn => hn, [(name, p)], rfl, fun e he => ?_⟩
    rw [List.mem_singleton.mp he]
    exact h

end State

namespace Surroundings

open RunM

variable {E : Surroundings} {s : State} {b : Footing}

section Functions

theorem local_function (id : Nat) : E.Local s (function id) fun _ t => t = s := by
  refine .get_bind rfl ?_
  split
  · exact .pure rfl rfl
  · exact .fail

theorem local_complete (id : Nat) (entry : FunctionEntry) :
    E.Local s (complete id entry) fun _ t => s.Keeps t := by
  refine .query_bind (local_function id) fun existing => ?_
  refine .check .fail ?_
  dsimp only
  split
  · exact .pure rfl (.refl _)
  · exact .modify rfl (.of_eq rfl rfl)
  · exact .fail

theorem local_register (entry : FunctionEntry) : E.Local s (register entry) fun _ t =>
    s.Keeps t ∧ (entry.owner = .global → t.IsFunctionName entry.name) := by
  refine .get_bind rfl ?_
  dsimp only
  split
  · rename_i id hd
    refine (local_complete id entry).mono fun _ t ht => ⟨ht, fun ho => ht.functions.names _ ?_⟩
    exact OverloadTable.contains_of_declared? (ho ▸ hd)
  · split
    · exact .fail
    · rename_i table hadd
      have hc := OverloadTable.contains_of_add hadd
      refine .modify rfl ⟨.of_tables rfl fun name hn => ?_, fun ho => ?_⟩
      · refine OwnerTables.contains_put (fun name hn => ?_) hn
        rw [hc, hn, Bool.or_true]
      · simp only [State.IsFunctionName, OwnerTables.table_put, ho, BEq.rfl, if_true, hc,
          Bool.true_or]

theorem local_defineFunctionName {name : String} (h : s.IsFunctionName name) (type : FunctionTy) :
    E.Local s (defineFunctionName name type) fun _ t => s.Keeps t := by
  refine .bind (local_onHeap _) fun p t ht => ?_
  refine .modify ?_ (ht.keeps (.defineGlobal (ht.functions.names name h) p))
  simp only [state, defineGlobal_scopes]

end Functions

section Stdio

variable (v file : Value) (name mode : String)

theorem local_ofLibrary {α : Type} (x : Except LibraryFault α) :
    E.Local s (ofLibrary x) fun _ t => t = s := by
  cases x with
  | ok a => exact .pure rfl rfl
  | error cause => exact .fail

theorem local_stringArgument : E.Local s (stringArgument v) fun _ t => t = s :=
  .inspect_bind rfl (local_ofLibrary _)

theorem local_writeConsole (text : String) : E.Local s (writeConsole text) fun _ t => s.Keeps t :=
  local_modify rfl rfl rfl

theorem follows_intResult (hs : b.Allows s) (v : Int) : E.Follows b s (intResult v) :=
  .pure rfl hs

theorem local_fileHandle : E.Local s (fileHandle v) fun _ t => t = s := by
  refine .get_bind rfl ?_
  extract_lets heap found handle
  cases handle with
  | some handle => exact .pure rfl rfl
  | none => exact .fail

theorem follows_readCharacter (hs : b.Allows s) : E.Follows b s readCharacter := by
  refine .get_bind rfl ?_
  refine .bind (local_modify rfl rfl rfl) fun _ t ht => ?_
  split
  · exact follows_intResult (hs.keeps ht) _
  · exact follows_intResult (hs.keeps ht) _
  · exact .pure rfl ⟨b, ⟨nofun, nofun, hs.keeps ht⟩, .nil (.refl b)⟩

theorem local_openFile : E.Local s (openFile name mode) fun _ t => s.Keeps t := by
  unfold openFile
  extract_lets openAs
  have hopen (create : Bool) (s : State) : E.Local s (openAs create) fun _ t => s.Keeps t :=
    fun _ => ⟨.of_eq rfl rfl, rfl⟩
  split
  · exact hopen false s
  · refine .bind (.discard (hopen true s)) fun _ t ht => ?_
    refine .bind (R := fun _ u => s.Keeps u) ?_ fun _ u hu => .pure rfl hu
    exact .modify rfl (ht.keeps (.of_eq rfl rfl))
  · exact hopen true s
  · exact .fail

theorem local_filePointer : E.Local s (filePointer name mode) fun _ t => s.Keeps t := by
  refine .bind (local_openFile name mode) fun opened t ht => .get_bind rfl ?_
  split
  · exact .fail
  · dsimp only
    refine .ite (.pure rfl ht) ?_
    refine .bind (R := fun _ u => s.Keeps u) ?_ fun handle u hu => ?_
    · exact fun _ => ⟨ht.keeps (.of_eq rfl rfl), rfl⟩
    · refine .bind (local_alloc _) fun store w hw => ?_
      exact .bind (local_onHeap _) fun place x hx => .pure rfl ((hu.keeps hw).keeps hx)

theorem follows_callLibrary (hs : b.Allows s) (f : StdioFunction) (args : List Value) :
    E.Follows b s (callLibrary f args) := by
  unfold callLibrary
  split
  -- printf
  · refine .query_bind (local_stringArgument _) fun format => ?_
    refine .get_bind rfl (.read_bind (fun _ => rfl) fun _ => ?_)
    refine .query_bind (local_ofLibrary _) fun out => ?_
    exact .bind (local_writeConsole out) fun _ t ht => follows_intResult (hs.keeps ht) _
  · exact .fail
  -- puts
  · refine .query_bind (local_stringArgument _) fun out => ?_
    exact .bind (local_writeConsole _) fun _ t ht => follows_intResult (hs.keeps ht) _
  -- putchar
  · split
    · exact .fail
    · extract_lets rest
      split
      · exact .bind (local_writeConsole _) fun _ t ht => follows_intResult (hs.keeps ht) _
      · exact follows_intResult hs _
  -- getchar
  · exact follows_readCharacter hs
  -- fopen
  · refine .query_bind (local_stringArgument _) fun name => ?_
    refine .query_bind (local_stringArgument _) fun mode => ?_
    exact .bind (local_filePointer name mode) fun v t ht => .pure rfl (hs.keeps ht)
  -- fputs, fgetc and fclose
  · refine .query_bind (local_stringArgument _) fun out => ?_
    refine .query_bind (local_fileHandle _) fun handle => .get_bind rfl ?_
    split
    · exact follows_intResult hs _
    · refine .bind (local_modify rfl rfl rfl) fun _ t ht => ?_
      exact follows_intResult (hs.keeps ht) _
  · refine .query_bind (local_fileHandle _) fun handle => .get_bind rfl ?_
    split
    · exact follows_intResult hs _
    · refine .bind (local_modify rfl rfl rfl) fun _ t ht => ?_
      exact follows_intResult (hs.keeps ht) _
  · refine .query_bind (local_fileHandle _) fun handle => .get_bind rfl ?_
    split
    · exact follows_intResult hs _
    · refine .bind (local_modify rfl rfl rfl) fun _ t ht => ?_
      exact follows_intResult (hs.keeps ht) _
  · exact .fail

theorem local_defineLibraryFunction (f : StdioFunction) :
    E.Local s (defineLibraryFunction f) fun _ t => s.Keeps t := by
  refine .bind (local_register _) fun _ t ⟨ht, hn⟩ => ?_
  refine .bind (local_defineFunctionName (hn rfl) _) fun _ u hu => .get_bind rfl ?_
  split
  · exact .fail
  · exact .modify rfl ((ht.keeps hu).keeps (.of_eq rfl rfl))

theorem local_define (l : Library) : E.Local s (define l) fun _ t => s.Keeps t := by
  cases l
  refine .bind (local_modify rfl rfl rfl) fun _ t ht => ?_
  refine .bind (.forM (I := fun u => s.Keeps u) ht fun f _ u hu => ?_) fun _ u hu => ?_
  · exact (local_defineLibraryFunction f).mono fun _ w hw => hu.keeps hw
  · exact .modify rfl (hu.keeps (.of_eq rfl rfl))

theorem local_loadLibrary (name : String) :
    E.Local s (loadLibrary name) fun _ t => s.Keeps t := by
  refine .read_bind (fun _ => rfl) fun c => ?_
  split
  · exact .fail
  · refine .get_bind rfl (.ite (.pure rfl (.refl s)) ?_)
    refine .bind (local_modify rfl rfl rfl) fun _ t ht => ?_
    exact (local_define _).mono fun _ u hu => ht.keeps hu

end Stdio

end Surroundings

end Stepwise

/-! ## Calls in other surroundings

The body of a function runs in a frame of its own, from where no scope of a caller is in
view. So a call does the same whatever scopes there are when it begins, and it leaves
them as they were.
-/

namespace Stepwise

open RunM

namespace Surroundings

variable {E : Surroundings} {r s t : State} {b : Footing}

theorem local_boundArguments (args : List Value) (actions : List ArgAction)
    (params : List ParamTy) :
    E.Local s (boundArguments args actions params) fun _ t => s.Keeps t := by
  induction args generalizing s actions params with
  | nil => exact .pure rfl (.refl s)
  | cons v vs ih =>
    unfold boundArguments
    extract_lets rest
    have hrest (bound : Value) (t : State) (ht : s.Keeps t) :
        E.Local t (rest bound) fun _ u => s.Keeps u :=
      .bind (ih actions.tail params.tail) fun _ u hu => .pure rfl (ht.keeps hu)
    split
    · exact .query_bind (.pure rfl rfl) fun bound => hrest bound s (.refl s)
    · refine .ite (.query_bind (.pure rfl rfl) fun bound => hrest bound s (.refl s)) ?_
      refine .bind (local_operate (OperatorM.closed_conservative.copy _ _)) fun _ t ht => ?_
      exact .query_bind (.pure rfl rfl) fun bound => hrest bound t ht

section Frame

variable (ha : E.Admits s)

include ha

theorem local_bindReceiver (r : Receiver) :
    E.Local s (bindReceiver r) fun _ t => s.Gains t := by
  unfold bindReceiver
  split
  · refine .inspect_bind rfl ?_
    extract_lets rest
    have hrest (object : Place) (t : State) (ht : s.Keeps t) :
        E.Local t (rest object) fun _ u => s.Gains u := by
      refine .bind (local_defineVariable (ha.above ht) _ _) fun _ u hu => .inspect_bind rfl ?_
      have hu : s.Gains u := (State.Gains.of_keeps ht).trans hu
      split
      · exact .fail
      · refine .bind (.forIn (I := fun w => s.Gains w) hu fun (m, i) _ w hw => ?_) fun _ w hw =>
          .pure rfl hw
        exact .bind (local_declare (ha.gains hw) _ _) fun _ x hx => .pure rfl ⟨rfl, hw.trans hx⟩
    split
    · exact .query_bind (.pure rfl rfl) fun object => hrest object s (.refl s)
    · exact .bind (local_onHeap _) hrest
  · exact .fail

theorem local_bindParameter (name : Option String) (v : Value) :
    E.Local s (bindParameter name v) fun _ t => s.Gains t := by
  unfold bindParameter
  split
  · exact .pure rfl (.refl s)
  · exact local_declare ha _ _
  · exact local_defineVariable ha _ _

end Frame

section Body

variable (entry : FunctionEntry) (body : Stmt)

theorem follows_runDefaults (ha : E.Admits b.start) (hb : b.declares = true) (hs : b.Allows s)
    (params : List (ParamInfo × ParamTy)) : E.Follows b s (runDefaults entry body params) := by
  unfold runDefaults
  split
  · exact follows_visitStmt body false (ha.allows hs) rfl (.nil (.of_declares hb hs))
  · exact follows_visit _ none (ha.allows hs) rfl (.one ⟨ha, fun _ => hb, .of_allows hs⟩)
  · exact .fail

theorem follows_takeDefault (ha : E.Admits b.start) (hb : b.declares = true) (hs : b.Allows s)
    (name : String) (param : ParamTy) (rest : List (ParamInfo × ParamTy)) (v : Value) :
    E.Follows b s (takeDefault entry body name param rest v) := by
  refine .bind (local_operate (OperatorM.closed_conservative.copy v _)) fun _ t ht => ?_
  have ht : b.Allows t := hs.keeps ht
  refine .bind (local_defineVariable (ha.allows ht) _ _) fun _ u hu => ?_
  exact follows_runDefaults entry body ha hb (ht.gains hb hu) rest

/-- The body of a function goes on in a scope that the call has opened above those of its
caller. -/
theorem mirrors_beginBody (ha : E.Admits s) (hr : State.Above 1 r s) (receiver : Option Receiver)
    (args : List Value) :
    E.Mirrors E.progress s (beginBody entry receiver body args)
      (beginBody entry receiver body args) fun p t =>
        ∃ c n, E.Admits c.start ∧ State.Above (n + 1) r c.start ∧ p.At E c t := by
  unfold beginBody
  extract_lets rest
  have hrest (t : State) (ha : E.Admits t) (n : Nat) (hr : State.Above (n + 1) r t) :
      E.Mirrors E.progress t (rest ⟨⟩) (rest ⟨⟩) fun p u =>
        ∃ c n, E.Admits c.start ∧ State.Above (n + 1) r c.start ∧ p.At E c u := by
    have hbody : E.Follows ⟨t, true⟩ t (rest ⟨⟩) := by
      refine .bind (.forIn (I := t.Gains) (.refl t) fun (v, info) _ u hu => ?_) fun _ u hu => ?_
      · refine .bind (local_bindParameter (ha.gains hu) _ v) fun _ w hw => ?_
        exact .pure rfl ⟨rfl, hu.trans hw⟩
      · exact follows_runDefaults entry body ha rfl (Footing.allows_of_gains rfl hu) _
    exact hbody.mono fun p u hp => ⟨⟨t, true⟩, n, ha, hr, hp⟩
  split
  · refine .bind (local_bindReceiver ha _) fun _ t ht => .bind (local_pushScope _) fun _ u hu => ?_
    rw [hu]
    exact hrest _ ((ha.gains ht).above ((State.Keeps.refl t).push _)) 1 ((hr.gains ht).push _)
  · exact hrest s ha 0 hr

end Body

section Return

variable (entry : FunctionEntry) (flow : Flow)

/-- The depth that a call goes back to moves with the scopes of its caller. -/
theorem mirrors_leaveScopes {depth : Nat} (hd : 0 < depth) :
    E.Mirrors id s (leaveScopes depth) (leaveScopes (depth + E.outer.length)) fun _ t =>
      t = { s with scopes := s.scopes.truncate depth } := by
  refine .modify ?_ rfl
  simp only [state, truncate_scopes s.scopes hd]

theorem local_returned : E.Local s (returned entry flow) fun _ t => s.Keeps t := by
  refine .ite (.pure rfl (.refl s)) ?_
  split
  · exact local_operate (OperatorM.closed_conservative.copy _ _)
  · exact .ite (.pure rfl (.refl s)) .fail

/-- A call leaves the scopes of its caller as they were. -/
theorem mirrors_endCall {n : Nat} (hs : State.Above n b.start s) :
    E.Mirrors E.progress s (endCall entry b.start.scopes.depth flow)
      (endCall entry (b.start.scopes.depth + E.outer.length) flow) (Progress.At E b) := by
  refine .bind (mirrors_leaveScopes (Nat.succ_pos _)) fun _ t ht => ?_
  have ht : b.start.Keeps t := ht ▸ hs.truncate
  exact .bind (local_returned entry flow) fun _ u hu =>
    .pure rfl (Footing.allows_of_keeps (ht.keeps hu))

end Return

/-- A body does the same for all callers, whatever is in view where it begins. -/
theorem follows_enterBody (hs : b.Allows s) (entry : FunctionEntry) (receiver : Option Receiver)
    (body : Stmt) (args : List Value) : E.Follows b s (enterBody entry receiver body args) := by
  have hr : State.Above 1 s { s with scopes := s.scopes.pushFrame ("function " ++ entry.name) } :=
    (State.Keeps.refl s).push _
  refine .get_bind_state ?_
  simp only [state, depth_scopes]
  refine .mono (Q := Progress.At E ⟨s, false⟩) ?_ fun p u hp => hp.covered (.of_allows hs)
  refine .bind (.modify (Q := fun _ u => u = _) rfl rfl) fun _ u hu => ?_
  rw [hu]
  refine .outcome_bind (mirrors_beginBody entry body (.of_mem List.mem_cons_self rfl) hr
    receiver args) (fun p w hp => ?_) (fun e w => ?_) fun e _ _ => ⟨e, _, rfl, rfl⟩
  · obtain ⟨c, n, ha, hc, hp⟩ := hp
    have hf : (Frame.endCall entry s.scopes.depth).Rests E c ⟨s, false⟩ := ⟨ha, rfl, n, hc⟩
    exact mirrors_andThen hp hf fun flow hw =>
      mirrors_endCall (b := ⟨s, false⟩) entry flow (Footing.above_of_allows hc hw)
  · exact .bind (mirrors_leaveScopes (Nat.succ_pos _)) fun _ _ _ => .throw

theorem follows_invoke (hs : b.Allows s) (target : CallTarget) (args : List Value) :
    E.Follows b s (invoke target args) := by
  refine .query_bind (local_function _) fun entry => ?_
  refine .bind (local_boundArguments args _ _) fun bound t ht => ?_
  have ht : b.Allows t := hs.keeps ht
  split
  · exact follows_callLibrary ht _ bound
  · exact .fail
  · exact follows_enterBody ht entry _ _ bound

theorem resolve_config (c : Config) (tables : OwnerTables) (node : Option Node) :
    CallTarget.resolve ⟨(E.config c).numerics, tables, node⟩ =
      CallTarget.resolve ⟨c.numerics, tables, node⟩ := rfl

theorem follows_call (hs : b.Allows s) (f : Value) (args : List Value) :
    E.Follows b s (call f args) := by
  refine .read_bind (fun c => by simp only [resolve_config]) fun c => .get_bind rfl ?_
  dsimp only
  split
  · exact .throw
  · rename_i target tables hr
    have hk : s.Keeps { s with tables } :=
      .of_tables rfl fun name hn => CallTarget.contains_of_resolve hr hn
    refine .bind (.modify (Q := fun _ t => s.Keeps t) rfl hk) fun _ t ht => ?_
    exact follows_invoke (hs.keeps ht) target args

end Surroundings

end Stepwise
