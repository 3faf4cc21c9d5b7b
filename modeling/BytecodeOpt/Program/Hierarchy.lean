import BytecodeOpt.Program

/-!
# Class hierarchy

Which definition a reference finds on the superclass chain, which types lie below a type, and which
methods a call may reach.
-/

namespace BytecodeOpt.Program

/-- Walks at most `steps` classes up from `type`; leaving the program ends the search. -/
def lookupFrom (p : Program) (id : MethodId) : Nat → TypeName → Option Method
  | 0, _ => none
  | steps + 1, type =>
    match p.class? type with
    | none => none
    | some c =>
      match c.method? (id.withHolder type) with
      | some m => some m
      | none => c.superclass.bind (lookupFrom p id steps)

/-- The first definition on the superclass chain of the holder.  A chain without repetition is no
longer than the program. -/
def lookup? (p : Program) (id : MethodId) : Option Method :=
  p.lookupFrom id p.classes.length id.holder

def isDirectSubtype (type : TypeName) (c : Class) : Bool :=
  c.superclass = some type || c.interfaces.contains type

/-- Breadth-first search below the types in the queue; every type enters the queue once. -/
def subtypesFrom (p : Program) (root : TypeName) :
    Nat → List TypeName → List TypeName → List TypeName
  | 0, _, found => found
  | _, [], found => found
  | steps + 1, type :: queue, found =>
    let below := ((p.classes.filter (isDirectSubtype type)).map Class.type).filter
      fun t => !found.contains t && t != root
    subtypesFrom p root steps (queue ++ below) (found ++ below)

def subtypes (p : Program) (type : TypeName) : List TypeName :=
  p.subtypesFrom type (p.classes.length + 1) [type] []

def overridingMethods (p : Program) (id : MethodId) : List MethodId :=
  (p.subtypes id.holder).filterMap fun type =>
    ((p.method? (id.withHolder type)).filter Method.isVirtual).map Method.id

/-- The only method the call can run, if the hierarchy leaves just one. -/
def singleTarget? (p : Program) (kind : InvokeKind) (id : MethodId) : Option MethodId :=
  match p.lookup? id with
  | none => none
  | some found =>
    if kind.isDispatched && !(p.overridingMethods found.id).isEmpty then none else some found.id

def sortedDistinct (ids : List MethodId) : List MethodId :=
  (ids.mergeSort fun a b => (compare a b).isLE).eraseReps

/-- Every method of the program the call may run, in the order of method identities. -/
def possibleTargets (p : Program) (kind : InvokeKind) (id : MethodId) : List MethodId :=
  let resolved := ((p.lookup? id).map Method.id).toList
  sortedDistinct (resolved ++ if kind.isDispatched then p.overridingMethods id else [])

end BytecodeOpt.Program
