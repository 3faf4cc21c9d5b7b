/-!
# Access flags

The flags of classes, fields and methods, each with the bit it has in the encoded form.  Bits that
mean nothing for the kind of member are dropped when a mask is read.
-/

namespace BytecodeOpt

def flagBit (set : Bool) (bit : Nat) : Nat := if set then 1 <<< bit else 0

structure ClassFlags where
  isPublic : Bool := false
  isFinal : Bool := false
  isInterface : Bool := false
  isAbstract : Bool := false
  isSynthetic : Bool := false
  deriving DecidableEq, Repr, Inhabited

structure FieldFlags where
  isPublic : Bool := false
  isPrivate : Bool := false
  isProtected : Bool := false
  isStatic : Bool := false
  isFinal : Bool := false
  isSynthetic : Bool := false
  deriving DecidableEq, Repr, Inhabited

structure MethodFlags where
  isPublic : Bool := false
  isPrivate : Bool := false
  isProtected : Bool := false
  isStatic : Bool := false
  isFinal : Bool := false
  isSynchronized : Bool := false
  isBridge : Bool := false
  isNative : Bool := false
  isAbstract : Bool := false
  isSynthetic : Bool := false
  isConstructor : Bool := false
  deriving DecidableEq, Repr, Inhabited

def ClassFlags.ofMask (mask : Nat) : ClassFlags where
  isPublic := mask.testBit 0
  isFinal := mask.testBit 4
  isInterface := mask.testBit 9
  isAbstract := mask.testBit 10
  isSynthetic := mask.testBit 12

def ClassFlags.toMask (f : ClassFlags) : Nat :=
  flagBit f.isPublic 0 + flagBit f.isFinal 4 + flagBit f.isInterface 9 + flagBit f.isAbstract 10
    + flagBit f.isSynthetic 12

def FieldFlags.ofMask (mask : Nat) : FieldFlags where
  isPublic := mask.testBit 0
  isPrivate := mask.testBit 1
  isProtected := mask.testBit 2
  isStatic := mask.testBit 3
  isFinal := mask.testBit 4
  isSynthetic := mask.testBit 12

def FieldFlags.toMask (f : FieldFlags) : Nat :=
  flagBit f.isPublic 0 + flagBit f.isPrivate 1 + flagBit f.isProtected 2 + flagBit f.isStatic 3
    + flagBit f.isFinal 4 + flagBit f.isSynthetic 12

def MethodFlags.ofMask (mask : Nat) : MethodFlags where
  isPublic := mask.testBit 0
  isPrivate := mask.testBit 1
  isProtected := mask.testBit 2
  isStatic := mask.testBit 3
  isFinal := mask.testBit 4
  isSynchronized := mask.testBit 5
  isBridge := mask.testBit 6
  isNative := mask.testBit 8
  isAbstract := mask.testBit 10
  isSynthetic := mask.testBit 12
  isConstructor := mask.testBit 16

def MethodFlags.toMask (f : MethodFlags) : Nat :=
  flagBit f.isPublic 0 + flagBit f.isPrivate 1 + flagBit f.isProtected 2 + flagBit f.isStatic 3
    + flagBit f.isFinal 4 + flagBit f.isSynchronized 5 + flagBit f.isBridge 6
    + flagBit f.isNative 8 + flagBit f.isAbstract 10 + flagBit f.isSynthetic 12
    + flagBit f.isConstructor 16

end BytecodeOpt
