import BytecodeOpt.Program.Hierarchy
import Mathlib.Data.List.Nodup

/-!
# The methods of a program

A method is found under its own name.  A change to the method with a certain name changes the one
that is found under it and leaves the others.
-/

namespace BytecodeOpt

namespace Class

variable {α β : Type} {q : α → Bool} {f : α → α} {id : MethodId} {change : Method → Method}

theorem map_modifyFirst {g : α → β} (h : ∀ a, g (f a) = g a) (as : List α) :
    (modifyFirst q f as).map g = as.map g := by
  induction as with
  | nil => rfl
  | cons a rest ih =>
    rw [modifyFirst]
    split
    · simp [h]
    · simp [ih]

theorem type_modifyMethod (id : MethodId) (change : Method → Method) (c : Class) :
    (c.modifyMethod id change).type = c.type := by
  unfold modifyMethod
  split <;> rfl

theorem flags_modifyMethod (id : MethodId) (change : Method → Method) (c : Class) :
    (c.modifyMethod id change).flags = c.flags := by
  unfold modifyMethod
  split <;> rfl

theorem map_methods_modifyMethod {g : Method → β} (h : ∀ m, g (change m) = g m) (c : Class) :
    (c.modifyMethod id change).methods.map g = c.methods.map g := by
  rw [modifyMethod]
  split
  · simp only [methods, List.map_append, map_modifyFirst h]
  · simp only [methods, List.map_append, map_modifyFirst h]

theorem methods_mapMethods (c : Class) (f : Method → Method) :
    (c.mapMethods f).methods = c.methods.map f := by
  rw [methods, methods, mapMethods, List.map_append]

theorem type_foldl_addMethod (ms : List Method) (c : Class) :
    (ms.foldl addMethod c).type = c.type := by
  induction ms generalizing c with
  | nil => rfl
  | cons m ms ih =>
    rw [List.foldl_cons, ih, addMethod]
    split <;> rfl

theorem flags_foldl_addMethod (ms : List Method) (c : Class) :
    (ms.foldl addMethod c).flags = c.flags := by
  induction ms generalizing c with
  | nil => rfl
  | cons m ms ih =>
    rw [List.foldl_cons, ih, addMethod]
    split <;> rfl

theorem methods_foldl_addMethod (ms : List Method) (c : Class) :
    (ms.foldl addMethod c).methods.Perm (c.methods ++ ms) := by
  induction ms generalizing c with
  | nil => rw [List.foldl_nil, List.append_nil]
  | cons m ms ih =>
    have hone : (c.addMethod m).methods.Perm (c.methods ++ [m]) := by
      rw [addMethod]
      split
      · rw [methods, methods, List.append_assoc]
      · rw [methods, methods, List.append_assoc, List.append_assoc]
        exact List.perm_append_comm.append_left c.direct
    rw [List.foldl_cons, ← List.singleton_append, ← List.append_assoc]
    exact (ih _).trans (hone.append_right ms)

end Class

namespace Program

variable {p : Program} {m : Method} {id : MethodId}

theorem id_of_method? (h : p.method? id = some m) : m.id = id := by
  obtain ⟨c, _, hm⟩ := Option.bind_eq_some_iff.1 h
  simpa using List.find?_some hm

theorem mem_methods : m ∈ p.methods ↔ ∃ c ∈ p.classes, m ∈ c.methods := List.mem_flatMap

theorem methods_mapMethods (p : Program) (f : Method → Method) :
    (p.mapMethods f).methods = p.methods.map f := by
  simp only [methods, mapMethods, mapClasses, List.flatMap_map, List.map_flatMap,
    Class.methods_mapMethods]

theorem methodIds_mapClasses_sublist {f : Class → Class}
    (h : ∀ c, ((f c).methods.map Method.id).Sublist (c.methods.map Method.id)) :
    (p.mapClasses f).methodIds.Sublist p.methodIds := by
  have hsub (cs : List Class) : (((cs.map f).flatMap Class.methods).map Method.id).Sublist
      ((cs.flatMap Class.methods).map Method.id) := by
    induction cs with
    | nil => exact .slnil
    | cons c cs ih => grind
  exact hsub p.classes

end Program

end BytecodeOpt
