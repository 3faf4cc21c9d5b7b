import BytecodeOpt.Proofs.Compiler.Findings
import BytecodeOpt.Proofs.Program.Hierarchy

/-!
# Which shapes are selected

A census counts the occurrences of each shape and lists the shapes as they come up.  What is
selected from it is said in terms of the methods alone, so that their order matters for the order of
the result only.
-/

namespace BytecodeOpt

open List

namespace Outline

variable (methods : List (MethodId × List Shape))

/-! ## The census -/

namespace Census

/-- The census of the methods, in the order in which they are recorded. -/
def ofMethods : Census := methods.foldl (fun c m => c.record m.1 m.2) {}

structure Holds (c : Census) (found : List Shape) : Prop where
  count : ∀ s, c.count s = found.count s
  shapes : c.shapes.toList = found.eraseDups

variable {c : Census} {found : List Shape}

theorem holds_add (h : c.Holds found) (s : Shape) : (c.add s).Holds (found ++ [s]) := by
  have hnew : c.count s = 0 ↔ s ∉ found := by rw [h.count, count_eq_zero]
  refine ⟨fun t => ?_, ?_⟩
  · have hcount : c.counts.getD t 0 = found.count t := h.count t
    by_cases heq : s = t
    · subst heq
      simp [count, add, hcount]
    · simp [count, add, Std.HashMap.getD_insert, heq, hcount]
  · by_cases hs : s ∈ found <;> simp [add, eraseDups_append, removeAll, hnew, hs, h.shapes,
      eraseDups_cons]

theorem Holds.addAll (h : c.Holds found) (shapes : List Shape) :
    (shapes.foldl add c).Holds (found ++ shapes) := by
  induction shapes generalizing c found with
  | nil => simpa using h
  | cons s shapes ih => simpa using ih (holds_add h s)

theorem holds_ofMethods :
    (ofMethods methods).Holds (methods.flatMap Prod.snd) ∧ (ofMethods methods).methods =
      methods.filter (!·.2.isEmpty) := by
  -- the method recorded last is the last of the list
  induction methods using List.reverseRecOn with
  | nil => exact ⟨⟨fun s => by simp [ofMethods, count], rfl⟩, rfl⟩
  | append_singleton methods m ih =>
    obtain ⟨hholds, hmethods⟩ := ih
    have hadded := hholds.addAll m.2
    have hrecord : ofMethods (methods ++ [m]) = (ofMethods methods).record m.1 m.2 := by
      simp [ofMethods]
    rw [hrecord, record, flatMap_append, flatMap_singleton, filter_append]
    split
    next hm => simpa [isEmpty_iff.1 hm] using And.intro hholds hmethods
    next hm => exact ⟨⟨hadded.count, hadded.shapes⟩, by simp [methods_foldl_add, hmethods, hm]⟩

end Census

/-! ## The selection -/

namespace Selection

variable (o : OutlineOptions) (program : Program)

/-- A shape that methods contain often enough, neither too short nor too long. -/
def worthwhile (s : Shape) : Bool :=
  o.threshold ≤ (methods.flatMap Prod.snd).count s && o.minSize ≤ s.size && s.size ≤ o.maxSize

theorem isSelected_ofMethods : isSelected (.ofMethods methods) o = worthwhile methods o := by
  funext s
  rw [isSelected, (Census.holds_ofMethods methods).1.count, worthwhile]

theorem worthwhile_congr {methods' : List (MethodId × List Shape)} (h : methods.Perm methods') :
    worthwhile methods o = worthwhile methods' o := by
  funext s
  rw [worthwhile, worthwhile, (h.flatMap_right Prod.snd).count_eq]

/-- What is selected once the methods are recorded. -/
def select : Selection := ofCensus (.ofMethods methods) program o

theorem shapes_select : (select methods o program).methods.map Prod.fst =
    (methods.flatMap Prod.snd).eraseDups.filter (worthwhile methods o) := by
  rw [select, ofCensus, map_map, (Census.holds_ofMethods methods).1.shapes, isSelected_ofMethods]
  have hfst : ∀ shapes : List Shape, (shapes.zipIdx.map fun s => s.1) = shapes :=
    fun shapes => by simp
  exact hfst _

theorem reprocess_select : (select methods o program).reprocess =
    (methods.filter fun m => m.2.any (worthwhile methods o)).map Prod.fst := by
  rw [select, ofCensus, (Census.holds_ofMethods methods).2, filter_filter, isSelected_ofMethods]
  refine congrArg _ (filter_congr fun m _ => ?_)
  change (m.2.any _ && _) = _
  cases m.2 <;> simp

/-- The shapes that are worthwhile are selected as they come up, and numbered from zero on a class
of their own.  The methods that contain one are processed again. -/
structure Exact (s : Selection) : Prop where
  shapes : s.methods.map Prod.fst = (methods.flatMap Prod.snd).eraseDups.filter
    (worthwhile methods o)
  numbered : ∀ (i : Nat) shape id, s.methods[i]? = some (shape, id) →
    id = ⟨s.type, s!"{o.methodStem}{i}", shape.proto⟩
  fresh : program.isProgramType s.type = false
  reprocess : s.reprocess = (methods.filter fun m => m.2.any (worthwhile methods o)).map Prod.fst

/-- Another order of the methods selects the same. -/
theorem selection_exact : Exact methods o program (select methods o program) ∧
    ∀ methods', methods.Perm methods' →
      (∀ shape, shape ∈ (select methods o program).methods.map Prod.fst ↔
        shape ∈ (select methods' o program).methods.map Prod.fst) ∧
      (select methods o program).reprocess.Perm (select methods' o program).reprocess := by
  refine ⟨⟨shapes_select .., fun i shape id h => ?_, program.not_isProgramType_freshTypeName _,
    reprocess_select ..⟩,
    fun methods' hperm => ⟨fun shape => ?_, ?_⟩⟩
  · simp only [select, ofCensus, getElem?_map, Option.map_eq_some_iff, getElem?_zipIdx] at h
    obtain ⟨_, ⟨s, -, rfl⟩, heq⟩ := h
    cases heq
    simp [select, ofCensus]
  · rw [shapes_select, shapes_select]
    simp only [mem_filter, mem_eraseDups, worthwhile_congr _ o hperm,
      (hperm.flatMap_right Prod.snd).mem_iff]
  · rw [reprocess_select, reprocess_select]
    simp only [worthwhile_congr _ o hperm]
    exact (hperm.filter _).map _

def load (n : Int32) : Shape := ⟨[.const (.int n)], [], none⟩

/-- Two methods with the same two loads, in either order. -/
def twoLoads : List (MethodId × List Shape) :=
  [(⟨⟨"p.A"⟩, "f", ⟨.void, []⟩⟩, [load 1, load 2]), (⟨⟨"p.A"⟩, "g", ⟨.void, []⟩⟩, [load 2, load 1])]

def twice : OutlineOptions := { minSize := 1, threshold := 2 }

theorem selection_exact_twoLoads : twoLoads.Perm twoLoads.reverse ∧
    (select twoLoads twice {}).methods.map Prod.fst = [load 1, load 2] ∧
    (select twoLoads twice {}).reprocess.Perm (select twoLoads.reverse twice {}).reprocess := by
  have hperm := twoLoads.reverse_perm.symm
  obtain ⟨hexact, hreordered⟩ := selection_exact twoLoads twice {}
  exact ⟨hperm, hexact.shapes.trans (by decide), (hreordered _ hperm).2⟩

end Selection

end Outline

end BytecodeOpt
