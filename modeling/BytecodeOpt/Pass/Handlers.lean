import BytecodeOpt.Pass.Change

/-!
# Useless handlers

A block that cannot throw needs no handlers.
-/

namespace BytecodeOpt.Pass.Handlers

open Ssa

def isUseless (b : Block) : Bool := !b.handlers.isEmpty && b.throwingIndex?.isNone

def dropHandlers (body : Body) (b : BlockId) : Body :=
  let block := body.block b
  let targets := block.handlerTargets.filter fun t => !block.normalSuccessors.contains t
  targets.foldl (fun body t => body.removePred t b)
    (body.modifyBlock b fun block => { block with handlers := [] })

def run (method : MethodId) (body : Body) : Change :=
  let useless := body.blockIds.filter fun b => isUseless (body.block b)
  if useless.isEmpty then .unchanged body
  else
    { body := (useless.foldl dropHandlers body).removeUnreachable
      events := useless.flatMap fun b => (body.block b).handlerTargets.map fun target =>
        eventAt .handlerRemoved method b s!"B{b} cannot throw into B{target}" "catch-handlers"
      changed := true }

end BytecodeOpt.Pass.Handlers
