import BytecodeOpt.Class

/-!
# Programs

The classes being compiled, in the order they were added, and what is known of the tables that map
enum ordinals to switch keys.
-/

namespace BytecodeOpt

abbrev SwitchMap := List (Int × Int)

structure Program where
  classes : List Class := []
  switchMaps : List (FieldId × SwitchMap) := []
  deriving DecidableEq, Repr, Inhabited

namespace Program

inductive Fault where
  | duplicateClass (type : TypeName)
  | missingMethod (id : MethodId)
  deriving DecidableEq, Repr, Inhabited

def Fault.message : Fault → String
  | .duplicateClass type => s!"Duplicate definition of class {type}"
  | .missingMethod id => s!"Method {id} is not in the program"

def class? (p : Program) (type : TypeName) : Option Class := p.classes.find? (·.type = type)

def isProgramType (p : Program) (type : TypeName) : Bool := p.classes.any (·.type = type)

def addClass (p : Program) (c : Class) : Except Fault Program :=
  if p.isProgramType c.type then .error (.duplicateClass c.type)
  else .ok { p with classes := p.classes ++ [c] }

def modifyClass (p : Program) (type : TypeName) (f : Class → Class) : Program :=
  { p with classes := Class.modifyFirst (·.type = type) f p.classes }

def mapClasses (p : Program) (f : Class → Class) : Program :=
  { p with classes := p.classes.map f }

def methods (p : Program) : List Method := p.classes.flatMap Class.methods

def methodIds (p : Program) : List MethodId := p.methods.map Method.id

def method? (p : Program) (id : MethodId) : Option Method :=
  (p.class? id.holder).bind (·.method? id)

def modifyMethod (p : Program) (id : MethodId) (f : Method → Method) : Program :=
  p.modifyClass id.holder (·.modifyMethod id f)

def removeMethod (p : Program) (id : MethodId) : Program :=
  p.modifyClass id.holder (·.removeMethod id)

def mapMethods (p : Program) (f : Method → Method) : Program := p.mapClasses (·.mapMethods f)

def field? (p : Program) (id : FieldId) : Option Field := (p.class? id.holder).bind (·.field? id)

/-! ## Switch maps -/

/-- Puts a key into a switch map, keeping the ordinals ascending and distinct. -/
def insertOrdinal (ordinal key : Int) : SwitchMap → SwitchMap
  | [] => [(ordinal, key)]
  | (o, k) :: rest =>
    if ordinal < o then (ordinal, key) :: (o, k) :: rest
    else if ordinal = o then (ordinal, key) :: rest
    else (o, k) :: insertOrdinal ordinal key rest

def switchMapOf (entries : List (Int × Int)) : SwitchMap :=
  entries.foldl (fun map (ordinal, key) => insertOrdinal ordinal key map) []

def addSwitchMap (p : Program) (field : FieldId) (map : SwitchMap) : Program :=
  { p with switchMaps := (field, map) :: p.switchMaps }

def switchMap? (p : Program) (field : FieldId) : Option SwitchMap := p.switchMaps.lookup field

/-! ## Names and strings -/

/-- The names to try for a new class: the base itself, then the base with 1, 2, … -/
def candidateName (base : String) (n : Nat) : TypeName :=
  if n = 0 then ⟨base⟩ else ⟨base ++ toString n⟩

/-- The first candidate that no class has.  One more candidate than there are classes is enough. -/
def freshTypeName (p : Program) (base : String) : TypeName :=
  (((List.range (p.classes.length + 1)).map (candidateName base)).find?
    fun name => !p.isProgramType name).getD ⟨base⟩

def highestString? (p : Program) : Option String :=
  (p.methods.filterMap fun m => m.code.bind Code.highestString?).foldl Code.higher none

end Program

end BytecodeOpt
