import BytecodeOpt.Outline.Selection
import BytecodeOpt.Outline.Window
import BytecodeOpt.Pass.Change

/-!
# Outlining

Finds the sequences that could become a method, or replaces those for which there is one by a call.
-/

namespace BytecodeOpt.Pass.Outlining

open Ssa Outline

def found (method : MethodId) (windows : List Window) : List Event :=
  if windows.isEmpty then []
  else
    [{ kind := .outlineCandidateFound
       method := some method
       message := s!"{windows.length} candidate windows"
       source := some "outlining" }]

def isPreferred (a b : Window × MethodId) : Bool :=
  let a := a.1
  let b := b.1
  b.size < a.size
    || (a.size = b.size && (a.block < b.block || (a.block = b.block && a.start ≤ b.start)))

def overlaps (a b : Window) : Bool :=
  a.block = b.block && a.start < b.stop && b.start < a.stop

def choose (windows : List (Window × MethodId)) : List (Window × MethodId) :=
  windows.foldl (fun chosen w =>
    if chosen.any fun c => overlaps c.1 w.1 then chosen else chosen ++ [w]) []

def isLater (a b : Window × MethodId) : Bool :=
  b.1.block < a.1.block || (a.1.block = b.1.block && b.1.start ≤ a.1.start)

def replaceByCall (body : Body) (w : Window) (method : MethodId) : Body :=
  let call : Op := .invoke .static method w.inputs w.escaping
  body.modifyBlock w.block fun block =>
    { block with ops := block.ops.take w.start ++ call :: block.ops.drop w.stop }

def apply (method : MethodId) (program : Program) (o : OutlineOptions) (selection : Selection)
    (body : Body) : Change :=
  let selected := (windows program o body).filterMap fun w =>
    (selection.method? w.shape).map fun id => (w, id)
  let chosen := (choose (selected.mergeSort isPreferred)).mergeSort isLater
  { body := chosen.foldl (fun body (w, id) => replaceByCall body w id) body
    events := chosen.map fun (w, id) => eventAt .sequenceOutlined method w.start id.text "outlining"
    changed := !chosen.isEmpty }

end BytecodeOpt.Pass.Outlining
