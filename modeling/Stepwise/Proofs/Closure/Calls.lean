import Stepwise.Machine.Call
import Stepwise.Proofs.Closure.Computations

/-! # Properties of libraries

What the functions of a library do, and what loading one does.
-/

namespace Stepwise

namespace RunM

namespace Sequential

variable {T : (α : Type) → RunM α → (α → Prop) → Prop} {α : Type} (hT : Sequential T)

include hT

theorem ofLibrary (x : Except LibraryFault α) : T _ (ofLibrary x) fun _ => True := by
  cases x with
  | ok a => exact hT.pure trivial
  | error cause => exact hT.fail _ rfl

theorem stringArgument (v : Value) : T _ (stringArgument v) fun _ => True :=
  hT.inspect_bind (fun _ _ => rfl) fun _ => hT.ofLibrary _

theorem intResult (v : Int) : T _ (intResult v) Progress.Proceeds := hT.pure trivial

theorem fileHandle (v : Value) : T _ (fileHandle v) fun _ => True := by
  refine hT.get_bind (fun _ _ => rfl) fun s => ?_
  extract_lets heap found handle
  cases handle with
  | some handle => exact hT.pure trivial
  | none => exact hT.fail _ rfl

end Sequential

namespace Quiet

variable {T : (α : Type) → RunM α → (α → Prop) → Prop} {α : Type} (hT : Quiet T)

include hT

/-- A change of the files that answers something. -/
theorem onFiles (g : State → α) {h : State → State} (hc : State.Aside h)
    (hg : ∀ s console, g { s with console } = g s) :
    T _ (modifyGet fun s => (g s, h s)) fun _ => True :=
  hT.get_bind (f := fun s => do
    modify h
    return g s) (fun s console => by rw [hg]) fun _ =>
    hT.bind (hT.change hc) fun _ _ => hT.pure trivial

theorem openFile (name mode : String) : T _ (openFile name mode) fun _ => True := by
  unfold RunM.openFile
  extract_lets openAs
  have hopen (create : Bool) : T _ (openAs create) fun _ => True :=
    hT.onFiles (fun s => (s.files.openFile name create).1)
      (h := fun s => { s with files := (s.files.openFile name create).2 })
      ⟨⟨fun _ => rfl, fun _ => rfl, fun _ _ => rfl⟩, fun _ => rfl, fun _ => rfl, fun _ => rfl⟩ fun _ _ => rfl
  split
  · exact hopen false
  · refine hT.bind (hT.discard (hopen true)) fun _ _ => ?_
    refine hT.bind (hT.change ?_) fun _ _ => hT.pure trivial
    exact ⟨⟨fun _ => rfl, fun _ => rfl, fun _ _ => rfl⟩, fun _ => rfl, fun _ => rfl, fun _ => rfl⟩
  · exact hopen true
  · exact hT.fail _ rfl

theorem filePointer (name mode : String) : T _ (filePointer name mode) fun _ => True := by
  refine hT.bind (hT.openFile name mode) fun opened _ => hT.get_bind (fun _ _ => rfl) fun s => ?_
  split
  · exact hT.fail _ rfl
  · dsimp only
    refine Sequential.ite (hT.pure trivial) ?_
    refine hT.bind (R := fun _ => True) ?_ fun handle _ => ?_
    · exact hT.onFiles (fun s => Int.ofNat (s.openFiles.add name).1)
        (h := fun s => { s with openFiles := (s.openFiles.add name).2 })
        ⟨⟨fun _ => rfl, fun _ => rfl, fun _ _ => rfl⟩, fun _ => rfl, fun _ => rfl, fun _ => rfl⟩ fun _ _ => rfl
    · refine hT.bind (hT.alloc _) fun store _ => ?_
      exact hT.bind (hT.newSlot _) fun _ _ => hT.pure trivial

/-- What is done with an open file, or the end of file if there is none. -/
theorem onFile (v : Value) {f : State → Int → RunM (Progress .value)}
    (hc : ∀ s console, f { s with console } = f s)
    (hf : ∀ s handle, T _ (f s handle) Progress.Proceeds) :
    T _ (do
      let handle ← RunM.fileHandle v
      let s ← get
      f s handle) Progress.Proceeds :=
  hT.bind (hT.fileHandle v) fun handle _ =>
    hT.get_bind (fun s console => by rw [hc]) fun s => hf s handle

/-- All functions but the one that reads the console. -/
theorem callLibrary {f : StdioFunction} (hf : f ≠ .getchar) (args : List Value) :
    T _ (callLibrary f args) Progress.Proceeds := by
  have hfiles {h : State → State} (hc : State.Aside h) (n : Int) :
      T _ (do
        modify h
        RunM.intResult n) Progress.Proceeds :=
    hT.bind (hT.change hc) fun _ _ => hT.intResult n
  unfold RunM.callLibrary
  split
  -- printf
  · refine hT.bind (hT.stringArgument _) fun format _ => ?_
    refine hT.get_bind (fun _ _ => rfl) fun s => hT.read_bind fun c => ?_
    refine hT.bind (hT.ofLibrary _) fun out _ => ?_
    exact hT.bind (hT.writeConsole out) fun _ _ => hT.intResult _
  · exact hT.fail _ rfl
  -- puts
  · refine hT.bind (hT.stringArgument _) fun out _ => ?_
    exact hT.bind (hT.writeConsole _) fun _ _ => hT.intResult _
  -- putchar
  · split
    · exact hT.fail _ rfl
    · extract_lets rest
      split
      · exact hT.bind (hT.writeConsole _) fun _ _ => hT.intResult _
      · exact hT.intResult _
  · exact absurd rfl hf
  -- fopen
  · refine hT.bind (hT.stringArgument _) fun name _ => ?_
    refine hT.bind (hT.stringArgument _) fun mode _ => ?_
    exact hT.bind (hT.filePointer name mode) fun _ _ => hT.pure trivial
  -- fputs, fgetc and fclose
  · refine hT.bind (hT.stringArgument _) fun out _ => ?_
    refine hT.onFile _ (fun _ _ => rfl) fun s handle => ?_
    split
    · exact hT.intResult _
    · refine hfiles ?_ _
      exact ⟨⟨fun _ => rfl, fun _ => rfl, fun _ _ => rfl⟩, fun _ => rfl, fun _ => rfl, fun _ => rfl⟩
  · refine hT.onFile _ (fun _ _ => rfl) fun s handle => ?_
    split
    · exact hT.intResult _
    · refine hfiles ?_ _
      exact ⟨⟨fun _ => rfl, fun _ => rfl, fun _ _ => rfl⟩, fun _ => rfl, fun _ => rfl, fun _ => rfl⟩
  · refine hT.onFile _ (fun _ _ => rfl) fun s handle => ?_
    split
    · exact hT.intResult _
    · refine hfiles ?_ _
      exact ⟨⟨fun _ => rfl, fun _ => rfl, fun _ _ => rfl⟩, fun _ => rfl, fun _ => rfl, fun _ => rfl⟩
  · exact hT.fail _ rfl

theorem defineLibraryFunction (f : StdioFunction) :
    T _ (defineLibraryFunction f) fun _ => True := by
  refine hT.bind (hT.register _) fun _ _ => hT.bind (hT.defineFunctionName _ _) fun _ _ => ?_
  refine hT.get_bind (fun _ _ => rfl) fun s => ?_
  split
  · exact hT.fail _ rfl
  · exact hT.change ⟨⟨fun _ => rfl, fun _ => rfl, fun _ _ => rfl⟩, fun _ => rfl, fun _ => rfl, fun _ => rfl⟩

variable (hd : ∀ d, T _ (defineStruct d) fun _ => True)

include hd

theorem define (l : Library) : T _ (define l) fun _ => True := by
  cases l
  refine hT.bind (hd _) fun _ _ => ?_
  exact hT.bind (hT.forM hT.defineLibraryFunction) fun _ _ => hT.nameArith _ _

theorem loadLibrary (name : String) : T _ (loadLibrary name) fun _ => True := by
  refine hT.read_bind fun c => ?_
  split
  · exact hT.fail _ rfl
  · refine hT.get_bind (fun _ _ => rfl) fun s => Sequential.ite (hT.pure trivial) ?_
    refine hT.bind (hT.change ?_) fun _ _ => hT.define hd _
    exact ⟨⟨fun _ => rfl, fun _ => rfl, fun _ _ => rfl⟩, fun _ => rfl, fun _ => rfl, fun _ => rfl⟩

end Quiet

end RunM

end Stepwise

/-! ## Properties of calls

A call binds arguments, enters a body and comes back. Only a function of the library may
read the console on the way.
-/

namespace Stepwise

namespace RunM

namespace Quiet

variable {T : (α : Type) → RunM α → (α → Prop) → Prop} (hT : Quiet T)

include hT

theorem boundArguments (args : List Value) (actions : List ArgAction) (params : List ParamTy) :
    T _ (boundArguments args actions params) fun _ => True := by
  induction args generalizing actions params with
  | nil => exact hT.pure trivial
  | cons v vs ih =>
    unfold RunM.boundArguments
    extract_lets rest
    have hrest (bound : Value) : T _ (rest bound) fun _ => True :=
      hT.bind (ih actions.tail params.tail) fun _ _ => hT.pure trivial
    split
    · exact hT.bind (R := fun _ => True) (hT.pure trivial) fun bound _ => hrest bound
    · refine Sequential.ite ?_ ?_
      · exact hT.bind (R := fun _ => True) (hT.pure trivial) fun bound _ => hrest bound
      · refine hT.bind (hT.copy _ _) fun _ _ => ?_
        exact hT.bind (R := fun _ => True) (hT.pure trivial) fun bound _ => hrest bound

theorem bindReceiver (r : Receiver) : T _ (bindReceiver r) fun _ => True := by
  unfold RunM.bindReceiver
  split
  · refine hT.inspect_bind (fun _ _ => rfl) fun d => ?_
    extract_lets rest
    have hrest (object : Place) : T _ (rest object) fun _ => True := by
      refine hT.bind (hT.defineVariable _ _) fun _ _ => ?_
      refine hT.inspect_bind (fun _ _ => rfl) fun store => ?_
      split
      · exact hT.fail _ rfl
      · refine hT.bind (hT.forIn fun (m, i) => ?_) fun _ _ => hT.pure trivial
        exact hT.bind (hT.declare _ _) fun _ _ => hT.pure rfl
    split
    · exact hT.bind (R := fun _ => True) (hT.pure trivial) fun object _ => hrest object
    · exact hT.bind (hT.newSlot _) fun object _ => hrest object
  · exact hT.fail _ rfl

theorem bindParameter (name : Option String) (v : Value) :
    T _ (bindParameter name v) fun _ => True := by
  unfold RunM.bindParameter
  split
  · exact hT.pure trivial
  · exact hT.declare _ _
  · exact hT.defineVariable _ _

section Body

variable (entry : FunctionEntry) (body : Stmt)

theorem runDefaults (params : List (ParamInfo × ParamTy)) :
    T _ (runDefaults entry body params) Progress.Proceeds := by
  unfold RunM.runDefaults
  split
  · exact hT.visitStmt body false _
  · exact hT.visit _ none _
  · exact hT.fail _ rfl

theorem takeDefault (name : String) (param : ParamTy) (rest : List (ParamInfo × ParamTy))
    (v : Value) : T _ (takeDefault entry body name param rest v) Progress.Proceeds := by
  refine hT.bind (hT.copy v _) fun _ _ => hT.bind (hT.defineVariable _ _) fun _ _ => ?_
  exact hT.runDefaults entry body rest

theorem beginBody (receiver : Option Receiver) (args : List Value) :
    T _ (beginBody entry receiver body args) Progress.Proceeds := by
  unfold RunM.beginBody
  extract_lets rest
  have hrest : T _ (rest ⟨⟩) Progress.Proceeds := by
    refine hT.bind (hT.forIn fun (v, info) => ?_) fun _ _ => hT.runDefaults entry body _
    exact hT.bind (hT.bindParameter _ v) fun _ _ => hT.pure rfl
  split
  · exact hT.bind (hT.bindReceiver _) fun _ _ => hT.bind (hT.pushScope _) fun _ _ => hrest
  · exact hrest

end Body

theorem leaveScopes (depth : Nat) : T _ (leaveScopes depth) fun _ => True := hT.onScopes _

theorem returned (entry : FunctionEntry) (flow : Flow) :
    T _ (returned entry flow) fun _ => True := by
  refine Sequential.ite (hT.pure trivial) ?_
  split
  · exact hT.copy _ _
  · exact Sequential.ite (hT.pure trivial) (hT.fail _ rfl)

theorem endCall (entry : FunctionEntry) (depth : Nat) (flow : Flow) :
    T _ (endCall entry depth flow) Progress.Proceeds :=
  hT.bind (hT.leaveScopes depth) fun _ _ =>
    hT.bind (hT.returned entry flow) fun _ _ => hT.pure trivial

theorem enterBody (entry : FunctionEntry) (receiver : Option Receiver) (body : Stmt)
    (args : List Value) : T _ (enterBody entry receiver body args) Progress.Proceeds := by
  refine hT.get_bind (fun _ _ => rfl) fun s => hT.bind (hT.onScopes _) fun _ _ => ?_
  refine hT.rescue (hT.beginBody entry body receiver args) (fun p hp => ?_) (hT.leaveScopes _)
    fun _ => rfl
  exact hT.andThen hp (hT.endCall entry _)

section Read

variable (hr : T _ readCharacter fun _ => True)

include hr

/-- A call, if the property holds of what waits for input. -/
theorem invoke (target : CallTarget) (args : List Value) :
    T _ (invoke target args) fun _ => True := by
  refine hT.bind (hT.function _) fun entry _ => ?_
  refine hT.bind (hT.boundArguments args _ _) fun bound _ => ?_
  split
  · rename_i f _
    by_cases hf : f = .getchar
    · subst hf
      exact hr
    · exact hT.mono (hT.callLibrary hf bound) fun _ _ => trivial
  · exact hT.fail _ rfl
  · exact hT.mono (hT.enterBody entry _ _ bound) fun _ _ => trivial

theorem call (f : Value) (args : List Value) : T _ (call f args) fun _ => True := by
  rw [call_eq_resolveCall]
  exact hT.bind (hT.resolveCall f args) fun _ _ => hT.invoke hr _ args

end Read

end Quiet

end RunM

end Stepwise
