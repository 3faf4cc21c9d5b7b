import BytecodeOpt.Assembler
import BytecodeOpt.Proofs.RegisterCode.Layout

/-!
# Exactness of labels

Assembly succeeds exactly if no label is bound twice and every label that is referred to is bound.
Each reference then becomes the number of instructions in front of where its label is bound.
-/

namespace BytecodeOpt

open Fallible

variable {ε : Type} {f : Nat → Except ε Nat} {P : Nat → Prop} {g : Nat → Nat}

theorem Fallible.mapM_eq_ok_iff {α β : Type} {f : α → Except ε β} {P : α → Prop} {g : α → β}
    (h : ∀ x y, f x = .ok y ↔ P x ∧ y = g x) {xs : List α} {ys : List β} :
    xs.mapM f = .ok ys ↔ (∀ x ∈ xs, P x) ∧ ys = xs.map g := by
  induction xs generalizing ys with
  | nil => simp [pure_eq_ok]
  | cons x xs ih =>
    simp only [List.mapM_cons, bind_eq_ok, pure_eq_ok, h, ih, List.forall_mem_cons, List.map_cons]
    constructor
    · rintro ⟨_, ⟨hx, rfl⟩, _, ⟨hxs, rfl⟩, rfl⟩
      exact ⟨⟨hx, hxs⟩, rfl⟩
    · rintro ⟨⟨hx, hxs⟩, rfl⟩
      exact ⟨_, ⟨hx, rfl⟩, _, ⟨hxs, rfl⟩, rfl⟩

namespace Instruction

theorem mapTargetsM_eq_ok_iff (h : ∀ t n, f t = .ok n ↔ P t ∧ n = g t) (i j : Instruction) :
    i.mapTargetsM f = .ok j ↔ (∀ t ∈ i.targets, P t) ∧ j = i.mapTargets g := by
  cases i <;> simp [mapTargetsM, mapTargets, targets, map_eq_ok, pure_eq_ok,
    mapM_eq_ok_iff h, h, and_assoc]

end Instruction

namespace Assembler

namespace Step

def targets : Step → List Label
  | .jump i => i.targets
  | _ => []

def limits : Step → List Label
  | .guarded range => range.start :: range.stop :: range.handlers.map Handler.target
  | _ => []

/-- The labels a step refers to. -/
def labels (step : Step) : List Label := step.targets ++ step.limits

def instructions (address : Label → Nat) : Step → List Instruction
  | .emit i => [i]
  | .jump i => [i.mapTargets address]
  | _ => []

def ranges (address : Label → Nat) : Step → List TryRange
  | .guarded range =>
    [{ start := address range.start, stop := address range.stop
       handlers := range.handlers.map fun h => { h with target := address h.target } }]
  | _ => []

end Step

variable {steps : List Step} {label : Label} {n : Nat}

/-- The number of instructions emitted before a label is bound. -/
def placeOf (steps : List Step) (label : Label) : Nat :=
  position (steps.takeWhile (· ≠ .bind label))

theorem lookup_bindingsFrom (start : Nat) : (bindingsFrom start steps).lookup label =
    if .bind label ∈ steps then some (start + placeOf steps label) else none := by
  induction steps generalizing start with
  | nil => rfl
  | cons step rest ih =>
    cases step with
    | bind l =>
      by_cases hl : l = label
      · subst hl
        simp [bindingsFrom, placeOf, position]
      · have hne : label ≠ l := Ne.symm hl
        simp [bindingsFrom, ih, placeOf, position, Step.size, List.lookup_cons, hl, hne,
          beq_false_of_ne]
    | emit _ | jump _ | guarded _ =>
      simp [bindingsFrom, ih, placeOf, position, Step.size, Nat.add_assoc]

theorem resolve_eq_ok :
    resolve (bindings steps) label = .ok n ↔ .bind label ∈ steps ∧ n = placeOf steps label := by
  rw [resolve, bindings, lookup_bindingsFrom]
  split <;> grind

/-! ## Labels bound twice -/

theorem count_bindingsFrom (start : Nat) :
    ((bindingsFrom start steps).map Prod.fst).count label = steps.count (.bind label) := by
  induction steps generalizing start with
  | nil => rfl
  | cons step rest ih => cases step <;> simp [bindingsFrom, ih, List.count_cons]

theorem lastRepeated?_eq_none {seen labels : List Label} :
    lastRepeated? seen labels = none ↔ labels.Nodup ∧ ∀ l ∈ labels, l ∉ seen := by
  induction labels generalizing seen with
  | nil => simp [lastRepeated?]
  | cons l rest ih =>
    simp [lastRepeated?, ih]
    grind

theorem rebound?_eq_none : rebound? steps = none ↔ ∀ label, steps.count (.bind label) ≤ 1 := by
  simp [rebound?, lastRepeated?_eq_none, List.nodup_iff_count, bindings, count_bindingsFrom]

/-! ## References -/

theorem resolveInstruction_eq_ok (step : Step) (is : List Instruction) :
    resolveInstruction (bindings steps) step = .ok is ↔
      (∀ l ∈ step.targets, .bind l ∈ steps) ∧ is = step.instructions (placeOf steps) := by
  cases step <;> simp [resolveInstruction, Step.targets, Step.instructions, map_eq_ok, pure_eq_ok,
    Instruction.mapTargetsM_eq_ok_iff fun _ _ => resolve_eq_ok, and_assoc]

theorem resolveHandler_eq_ok (h h' : Handler) : resolveHandler (bindings steps) h = .ok h' ↔
    .bind h.target ∈ steps ∧ h' = { h with target := placeOf steps h.target } := by
  simp [resolveHandler, map_eq_ok, resolve_eq_ok, and_assoc]

theorem resolveRange_eq_ok (step : Step) (rs : List TryRange) :
    resolveRange (bindings steps) step = .ok rs ↔
      (∀ l ∈ step.limits, .bind l ∈ steps) ∧ rs = step.ranges (placeOf steps) := by
  cases step <;> simp [resolveRange, Step.ranges, Step.limits, bind_eq_ok, map_eq_ok, pure_eq_ok,
    resolve_eq_ok, mapM_eq_ok_iff resolveHandler_eq_ok, and_assoc]

end Assembler

end BytecodeOpt
