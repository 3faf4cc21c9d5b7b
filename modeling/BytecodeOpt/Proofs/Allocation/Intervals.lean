import BytecodeOpt.Allocation.Assignment
import BytecodeOpt.Proofs.Scan.Run

/-!
# Intervals of a body

Every value has an interval of its own, whose ranges are in order with gaps between them.  Only the
arguments are bound to a register beforehand.
-/

namespace BytecodeOpt.Allocation

open Ssa Interval

variable {intervals : Intervals} {body : Body} {count : Nat}

def Intervals.of (intervals : Intervals) (v : Operand) : Interval :=
  intervals.getD v { value := v }

structure Unbound (count : Nat) (intervals : Intervals) : Prop where
  size : intervals.size = count
  value : ∀ v, (intervals.of v).value = v
  separated : ∀ v, Separated (intervals.of v).ranges
  register : ∀ v, (intervals.of v).register = none
  isFixed : ∀ v, (intervals.of v).isFixed = false

def KeepsValue (f : Interval → Interval) : Prop :=
  ∀ i, (f i).value = i.value ∧ (f i).register = i.register ∧ (f i).isFixed = i.isFixed ∧
    (Separated i.ranges → Separated (f i).ranges)

theorem of_modify (intervals : Intervals) (v w : Operand) (f : Interval → Interval) :
    Intervals.of (intervals.modify v f) w = if v = w ∧ w < intervals.size then f (intervals.of w)
      else intervals.of w :=
  Table.getD_modify intervals f { value := w } v w

theorem keepsValue_addRange (start stop : Nat) : KeepsValue (·.addRange start stop) := by
  intro i
  refine ⟨?_, ?_, ?_, fun h => separated_addRange h start stop⟩
  all_goals unfold addRange; split <;> rfl

theorem keepsValue_defineAt (position : Nat) : KeepsValue (·.defineAt position) := by
  intro i
  obtain ⟨hvalue, hregister, hfixed, -⟩ := keepsValue_addRange position (position + 1) i
  suffices h : (i.defineAt position).value = i.value ∧ (i.defineAt position).register = i.register ∧
      (i.defineAt position).isFixed = i.isFixed from
    ⟨h.1, h.2.1, h.2.2, fun h => separated_defineAt h position⟩
  unfold defineAt
  split
  · grind
  · exact ⟨hvalue, hregister, hfixed⟩

section

variable (h : Unbound count intervals)
include h

theorem Unbound.modify {f : Interval → Interval} (hf : KeepsValue f)
    (v : Operand) : Unbound count (intervals.modify v f) := by
  constructor
  case size => simpa using h.size
  all_goals
    intro w
    rw [of_modify]
    split
  · rw [(hf _).1]; exact h.value w
  · exact h.value w
  · exact (hf _).2.2.2 (h.separated w)
  · exact h.separated w
  · rw [(hf _).2.1]; exact h.register w
  · exact h.register w
  · rw [(hf _).2.2.1]; exact h.isFixed w
  · exact h.isFixed w

theorem Unbound.foldl_modify {α : Type} {key : α → Operand} {f : α → Interval → Interval}
    (hf : ∀ x, KeepsValue (f x)) (xs : List α) :
    Unbound count (xs.foldl (fun intervals x => intervals.modify (key x) (f x)) intervals) :=
  List.foldlRecOn xs _ h fun _ h x _ => h.modify (hf x) (key x)

theorem Unbound.addOp (n : Numbering) (b : BlockId) (op : Op)
    (index : Nat) : Unbound count (addOp n b intervals op index) := by
  unfold Allocation.addOp
  refine Unbound.foldl_modify ?_ (fun _ => keepsValue_addRange _ _) op.uses
  split
  · exact h.modify (keepsValue_defineAt _) _
  · exact h

theorem Unbound.addBlock (body : Body) (n : Numbering) (l : Liveness)
    (b : BlockId) : Unbound count (addBlock body n l intervals b) := by
  unfold Allocation.addBlock
  refine Unbound.foldl_modify ?_ (fun _ => keepsValue_defineAt _) _
  refine List.foldlRecOn _ _ ?_ fun _ h e _ => h.addOp n b e.1 e.2
  exact h.foldl_modify (fun _ => keepsValue_addRange _ _) _

end

theorem of_initial (count : Nat) (v : Operand) :
    Intervals.of ((Array.range count).map fun v => { value := v }) v = { value := v } := by
  rw [Intervals.of, Table.getD_map]
  split
  · simp
  · rfl

theorem unbound_initial (count : Nat) :
    Unbound count ((Array.range count).map fun v => { value := v }) := by
  constructor
  case size => simp
  all_goals simp [of_initial, Separated]

theorem unbound_intervalsOf (body : Body) (n : Numbering) (l : Liveness) :
    Unbound body.valueCount (intervalsOf body n l) :=
  List.foldlRecOn _ _ (unbound_initial body.valueCount) fun _ h b _ => h.addBlock body n l b

/-! ## Arguments -/

structure Bound (body : Body) (intervals : Intervals) : Prop where
  size : intervals.size = body.valueCount
  value : ∀ v, (intervals.of v).value = v
  separated : ∀ v, Separated (intervals.of v).ranges
  fixed : ∀ v, (intervals.of v).isFixed = true → ∃ index b, (b, .argument v index) ∈ body.ops ∧
    (intervals.of v).register = some index

def bindOp (intervals : Intervals) : Op → Intervals
  | .argument dest index =>
    intervals.modify dest fun i => { i with isFixed := true, register := some index }
  | _ => intervals

theorem bindArguments_eq (body : Body) (intervals : Intervals) :
    Assignment.bindArguments body intervals = body.ops.foldl
      (fun intervals e => bindOp intervals e.2) intervals :=
  rfl

theorem Bound.bindOp (h : Bound body intervals) {b : BlockId} {op : Op} (hop : (b, op) ∈ body.ops) :
    Bound body (bindOp intervals op) := by
  unfold Allocation.bindOp
  split
  · rename_i dest index
    constructor
    case size => simpa using h.size
    case value =>
      intro w
      rw [of_modify]
      split <;> exact h.value w
    case separated =>
      intro w
      rw [of_modify]
      split <;> exact h.separated w
    case fixed =>
      intro w
      rw [of_modify]
      split
      · grind
      · exact h.fixed w
  · exact h

theorem bound_bindArguments (h : Unbound body.valueCount intervals) :
    Bound body (Assignment.bindArguments body intervals) := by
  rw [bindArguments_eq]
  refine List.foldlRecOn _ _ ⟨h.size, h.value, h.separated, fun v hv => ?_⟩ fun _ h e he =>
    h.bindOp he
  rw [h.isFixed v] at hv
  cases hv

def ArgumentsApart (body : Body) : Prop :=
  ∀ b c v w index, (b, .argument v index) ∈ body.ops → (c, .argument w index) ∈ body.ops → v = w

variable (h : Bound body intervals)
include h

theorem Bound.getElem {i : Interval} (hi : i ∈ intervals.toList) :
    ∃ v < body.valueCount, intervals.of v = i := by
  obtain ⟨v, hv, rfl⟩ := Array.mem_iff_getElem.1 (Array.mem_toList_iff.1 hi)
  exact ⟨v, h.size ▸ hv, Table.getD_of_lt hv⟩

theorem Bound.proper : Scan.Proper intervals.toList := by
  constructor
  case values =>
    have hvalues : intervals.toList.map Interval.value = List.range intervals.size := by
      refine List.ext_getElem (by simp) fun v hv _ => ?_
      have hv : v < intervals.size := by simpa using hv
      have := h.value v
      rw [Intervals.of, Table.getD_of_lt hv] at this
      simpa using this
    rw [hvalues]
    exact List.nodup_range
  case ordered =>
    intro i hi
    obtain ⟨v, -, rfl⟩ := h.getElem hi
    exact (h.separated v).ordered
  case register =>
    intro i hi hfixed
    obtain ⟨v, -, rfl⟩ := h.getElem hi
    obtain ⟨index, b, -, hregister⟩ := h.fixed v hfixed
    simp [hregister]

theorem Bound.apart (hapart : ArgumentsApart body) :
    intervals.toList.Pairwise fun i j => i.isFixed = true → j.isFixed = true →
      i.register = j.register → i.Disjoint j := by
  refine (List.pairwise_map.1 h.proper.values).imp_of_mem ?_
  intro i j hi hj hne hifixed hjfixed hsame
  obtain ⟨v, -, rfl⟩ := h.getElem hi
  obtain ⟨w, -, rfl⟩ := h.getElem hj
  obtain ⟨index, b, hb, hv⟩ := h.fixed v hifixed
  obtain ⟨index', c, hc, hw⟩ := h.fixed w hjfixed
  rw [hv, hw] at hsame
  cases hsame
  rw [h.value, h.value] at hne
  exact absurd (hapart b c v w index hb hc) hne

end BytecodeOpt.Allocation
