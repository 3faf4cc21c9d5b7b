import BytecodeOpt.Proofs.Ssa.Definedness
import BytecodeOpt.Proofs.Ssa.Renaming

/-!
# Replacing a stretch of a block

One stretch of operations stands in place of another, and what was defined there goes by another
name.  A body that passes the check still does so, if the new stretch reads only what is defined
before it and defines what is read behind it.
-/

namespace BytecodeOpt

namespace Op

def isPlain (op : Op) : Bool := !op.isTerminator && !op.isArgument && !op.isMoveException

end Op

namespace Ssa

variable {v : Operand}

def dests (ops : List Op) : List Operand := ops.filterMap Op.dest?

theorem mem_dests {ops : List Op} : v ∈ dests ops ↔ ∃ op ∈ ops, op.dest? = some v := by
  simp [dests]

theorem dests_cons (op : Op) (ops : List Op) :
    dests (op :: ops) = op.dest?.toList ++ dests ops := by
  rw [dests, List.filterMap_cons]
  cases op.dest? <;> rfl

@[simp] theorem dests_append (ops more : List Op) : dests (ops ++ more) = dests ops ++ dests more :=
  List.filterMap_append

@[simp] theorem dests_mapUses (r : Operand → Operand) (ops : List Op) :
    dests (ops.map (Op.mapUses r)) = dests ops := by
  simp [dests, List.filterMap_map, Op.dest?_mapUses]

/-- A position behind a stretch moves when another stretch takes its place. -/
def shifted (start size size' k : Nat) : Nat := if start + size ≤ k then k - size + size' else k

namespace Body

/-- In one block `mid'` stands where `mid` stood, and all that is read elsewhere is read under the
name that `r` gives it. -/
structure Spliced (body body' : Body) (r : Operand → Operand) (b : BlockId)
    (pre mid mid' post : List Op) : Prop where
  count : body'.blockCount = body.blockCount
  inside : b < body.blockCount
  ops : (body.block b).ops = pre ++ (mid ++ post)
  ops' : (body'.block b).ops = pre.map (Op.mapUses r) ++ (mid' ++ post.map (Op.mapUses r))
  others : ∀ c, c ≠ b → (body'.block c).ops = (body.block c).ops.map (Op.mapUses r)
  phis : ∀ c, (body'.block c).phis = (body.block c).phis.map fun phi =>
    { phi with operands := phi.operands.map r }
  preds : ∀ c, (body'.block c).preds = (body.block c).preds
  handlers : ∀ c, (body'.block c).handlers = (body.block c).handlers
  quiet : (body.block b).handlers = [] ∨ ∀ op ∈ pre ++ (mid ++ mid'), op.canThrow = false
  post_ne : post ≠ []
  plain : ∀ op ∈ mid ++ mid', op.isPlain = true

theorem Checked.post_ne {body : Body} (h : body.Checked) {b : BlockId} {pre mid post : List Op}
    (hops : (body.block b).ops = pre ++ (mid ++ post)) (hmid : mid ≠ [])
    (hplain : ∀ op ∈ mid, op.isPlain = true) : post ≠ [] := by
  rintro rfl
  obtain ⟨init, last, rfl⟩ := (List.eq_nil_or_concat mid).resolve_left hmid
  rw [List.append_nil, List.concat_eq_append] at hops
  have hget : (body.block b).ops[(pre ++ init).length]? = some last := by simp [hops]
  have hterm := h.isTerminator_of_last hget (by simp [hops, Nat.add_assoc])
  have hlast := hplain last (by simp)
  simp [Op.isPlain, hterm] at hlast

def Outside (b : BlockId) (start size : Nat) (c : BlockId) (k : Nat) : Prop :=
  c = b → k ≤ start ∨ start + size ≤ k

def ReadOutside (body : Body) (b : BlockId) (start size : Nat) (v : Operand) : Prop :=
  (∃ c, ∃ phi ∈ (body.block c).phis, v ∈ phi.operands) ∨
    ∃ c k op, (body.block c).ops[k]? = some op ∧ v ∈ op.uses ∧
      (c = b → k < start ∨ start + size ≤ k)

namespace Spliced

variable {body body' : Body} {r : Operand → Operand} {b c : BlockId}
  {pre mid mid' post : List Op} {k : Nat}

variable (h : Spliced body body' r b pre mid mid' post)
include h

/-! ## The graph -/

theorem terminator?_eq (c : BlockId) :
    (body'.block c).terminator? = (body.block c).terminator?.map (Op.mapUses r) := by
  have hlast : (body'.block c).ops.getLast? = ((body.block c).ops.getLast?).map (Op.mapUses r) := by
    by_cases hc : c = b
    · subst hc
      obtain ⟨first, rest, hpost⟩ := List.exists_cons_of_ne_nil h.post_ne
      rw [h.ops', h.ops, hpost]
      simp [List.getLast?_append, List.getLast?_cons]
    · rw [h.others c hc, List.getLast?_map]
  rw [Block.terminator?, Block.terminator?, hlast]
  cases (body.block c).ops.getLast? with
  | none => rfl
  | some op => simp [Option.filter_some, apply_ite]

theorem normalSuccessors_eq (c : BlockId) :
    (body'.block c).normalSuccessors = (body.block c).normalSuccessors := by
  rw [Block.normalSuccessors, h.terminator?_eq, Block.normalSuccessors]
  cases (body.block c).terminator? with
  | none => rfl
  | some op => simp [Op.successors]

theorem handlerTargets_eq (c : BlockId) :
    (body'.block c).handlerTargets = (body.block c).handlerTargets := by
  rw [Block.handlerTargets, h.handlers, Block.handlerTargets]

theorem successors_eq (c : BlockId) : (body'.block c).successors = (body.block c).successors := by
  rw [Block.successors, h.normalSuccessors_eq, h.handlerTargets_eq, Block.successors]

theorem graph_eq : body'.graph = body.graph := graph_congr h.count fun c _ => h.successors_eq c

theorem dominators_eq : body'.dominators = body.dominators := by
  rw [dominators, h.graph_eq, dominators]

theorem isExceptionalSuccessor_eq (c t : BlockId) :
    (body'.block c).isExceptionalSuccessor t = (body.block c).isExceptionalSuccessor t := by
  simp only [Block.isExceptionalSuccessor, Block.isHandlerTarget, h.handlerTargets_eq,
    h.normalSuccessors_eq]

theorem isHandlerEntry_eq (c : BlockId) : body'.isHandlerEntry c = body.isHandlerEntry c := by
  simp only [isHandlerEntry, h.preds, h.isExceptionalSuccessor_eq]

theorem phiDests_eq (c : BlockId) : (body'.block c).phiDests = (body.block c).phiDests := by
  simp [Block.phiDests, h.phis]

/-! ## Positions -/

def position (_ : Spliced body body' r b pre mid mid' post) (c : BlockId) (k : Nat) : Nat :=
  if c = b then shifted pre.length mid.length mid'.length k else k

theorem position_self (k : Nat) : h.position b k = shifted pre.length mid.length mid'.length k :=
  if_pos rfl

theorem position_of_ne (hc : c ≠ b) (k : Nat) : h.position c k = k := if_neg hc

theorem getElem?_position (hk : c = b → k < pre.length ∨ pre.length + mid.length ≤ k) :
    (body'.block c).ops[h.position c k]? = ((body.block c).ops[k]?).map (Op.mapUses r) := by
  by_cases hc : c = b
  · subst hc
    rw [h.position_self, h.ops, h.ops', shifted]
    rcases hk rfl with hlt | hge
    · grind
    · grind
  · rw [h.position_of_ne hc, h.others c hc, List.getElem?_map]

theorem getElem?_mid {j : Nat} (hj : j < mid'.length) :
    (body'.block b).ops[pre.length + j]? = mid'[j]? := by
  rw [h.ops', List.getElem?_append_right (by simp), List.length_map, Nat.add_sub_cancel_left,
    List.getElem?_append_left hj]

theorem cases_getElem? {op : Op} (hop : (body'.block c).ops[k]? = some op) :
    (∃ i old, (c = b → i < pre.length ∨ pre.length + mid.length ≤ i) ∧
      (body.block c).ops[i]? = some old ∧ k = h.position c i ∧ op = old.mapUses r) ∨
    (c = b ∧ ∃ j, mid'[j]? = some op ∧ k = pre.length + j) := by
  have hold : ∀ i, (c = b → i < pre.length ∨ pre.length + mid.length ≤ i) → k = h.position c i →
      ∃ i old, (c = b → i < pre.length ∨ pre.length + mid.length ≤ i) ∧
        (body.block c).ops[i]? = some old ∧ k = h.position c i ∧ op = old.mapUses r := by
    rintro i hi rfl
    rw [h.getElem?_position hi, Option.map_eq_some_iff] at hop
    obtain ⟨old, hold, rfl⟩ := hop
    exact ⟨i, old, hi, hold, rfl, rfl⟩
  by_cases hc : c = b
  · subst hc
    by_cases hlt : k < pre.length
    · exact .inl (hold k (fun _ => .inl hlt) (by rw [h.position_self, shifted, if_neg (by omega)]))
    by_cases hmid : k < pre.length + mid'.length
    · obtain ⟨j, rfl⟩ : ∃ j, k = pre.length + j := ⟨k - pre.length, by omega⟩
      rw [h.getElem?_mid (by omega)] at hop
      exact .inr ⟨rfl, j, hop, rfl⟩
    · refine .inl (hold (k - mid'.length + mid.length) (fun _ => .inr (by omega)) ?_)
      rw [h.position_self, shifted, if_pos (by omega)]
      omega
  · exact .inl (hold k (fun hcb => absurd hcb hc) (h.position_of_ne hc k).symm)

theorem position_lt {j k : Nat} (hj : c = b → j < pre.length ∨ pre.length + mid.length ≤ j)
    (hk : Outside b pre.length mid.length c k) (hjk : j < k) : h.position c j < h.position c k := by
  by_cases hc : c = b
  · subst hc
    rw [h.position_self, h.position_self, shifted, shifted]
    have := hj rfl
    have := hk rfl
    split <;> split <;> omega
  · rwa [h.position_of_ne hc, h.position_of_ne hc]

/-- A block throws where what comes behind the stretch does. -/
theorem throws_behind : ∃ rest : Block,
    (body.block b).throwingIndex? = rest.throwingIndex?.map (pre.length + mid.length + ·) ∧
    (body'.block b).throwingIndex? = rest.throwingIndex?.map (pre.length + mid'.length + ·) ∧
    throwsAtEnd (body'.block b) = throwsAtEnd (body.block b) := by
  let rest : Block := { body.block b with ops := post }
  have hops : (body.block b).ops.map Op.canThrow = (pre ++ mid).map Op.canThrow ++
      rest.ops.map Op.canThrow := by
    simp [h.ops, rest]
  have hops' : (body'.block b).ops.map Op.canThrow = (pre ++ mid').map Op.canThrow ++
      rest.ops.map Op.canThrow := by
    simp [h.ops', rest, Function.comp_def]
  have hempty : rest.handlers.isEmpty = (body.block b).handlers.isEmpty := rfl
  have hempty' : rest.handlers.isEmpty = (body'.block b).handlers.isEmpty := by rw [h.handlers]
  have hquiet : ∀ ops : List Op, ops ⊆ pre ++ (mid ++ mid') →
      (body.block b).handlers = [] ∨ ∀ throws ∈ ops.map Op.canThrow, throws = false :=
        fun ops hsub =>
    h.quiet.imp_right fun hquiet throws hmem => by
      obtain ⟨op, hop, rfl⟩ := List.mem_map.1 hmem
      exact hquiet op (hsub hop)
  have hold := hquiet (pre ++ mid) (by simp)
  have hnew := hquiet (pre ++ mid') (by simp)
  rw [← h.handlers] at hnew
  refine ⟨rest, ?_, ?_, ?_⟩
  · simpa using Block.throwingIndex?_suffix _ hempty hops hold
  · simpa using Block.throwingIndex?_suffix _ hempty' hops' hnew
  · rw [Block.throwsAtEnd_suffix _ hempty' hops' hnew, Block.throwsAtEnd_suffix _ hempty hops hold]

theorem canThrow_others (hc : c ≠ b) :
    (body'.block c).ops.map Op.canThrow = (body.block c).ops.map Op.canThrow := by
  simp [h.others c hc, Function.comp_def]

/-- Control leaves the block behind the stretch. -/
theorem exists_exitPosition (t : BlockId) :
    ∃ n, body.exitPosition b t = pre.length + mid.length + n ∧
    body'.exitPosition b t = pre.length + mid'.length + n := by
  have hlength : (body.block b).ops.length = pre.length + mid.length + post.length := by
    simp [h.ops, Nat.add_assoc]
  have hlength' : (body'.block b).ops.length = pre.length + mid'.length + post.length := by
    simp [h.ops', Nat.add_assoc]
  simp only [exitPosition, h.isExceptionalSuccessor_eq]
  split
  next hexceptional =>
    obtain ⟨rest, hthrow, hthrow', -⟩ := h.throws_behind
    rw [hthrow, hthrow', hlength, hlength']
    cases rest.throwingIndex? with
    | none => exact ⟨_, rfl, rfl⟩
    | some n => exact ⟨n, rfl, rfl⟩
  next => exact ⟨post.length, hlength, hlength'⟩

theorem exitPosition_eq (p t : BlockId) :
    body'.exitPosition p t = h.position p (body.exitPosition p t) := by
  by_cases hp : p = b
  · subst hp
    obtain ⟨n, hexit, hexit'⟩ := h.exists_exitPosition t
    rw [hexit, hexit', h.position_self, shifted, if_pos (by omega)]
    omega
  · have hthrow := Block.throwingIndex?_congr (h.canThrow_others hp) (by rw [h.handlers])
    simp only [exitPosition, h.isExceptionalSuccessor_eq, hthrow, h.others p hp, List.length_map]
    exact (h.position_of_ne hp _).symm

theorem outside_exitPosition (p t : BlockId) :
    Outside b pre.length mid.length p (body.exitPosition p t) := by
  rintro rfl
  obtain ⟨n, hexit, -⟩ := h.exists_exitPosition t
  omega

/-! ## Definitions -/

theorem definedAt_mid (hv : v ∈ dests mid) :
    ∃ j < mid.length, body.DefinedAt v (.op b (pre.length + j)) := by
  obtain ⟨op, hop, hdest⟩ := mem_dests.1 hv
  obtain ⟨j, hlt, rfl⟩ := List.getElem_of_mem hop
  refine ⟨j, hlt, h.inside, mid[j], ?_, hdest⟩
  rw [h.ops, List.getElem?_append_right (by omega), Nat.add_sub_cancel_left,
    List.getElem?_append_left hlt, List.getElem?_eq_getElem hlt]

theorem dominated_of_position {k' : Nat} (hv : v ∉ dests mid) (hdom : body.Dominated c k v)
    (hk : ∀ j < k, (c = b → j < pre.length ∨ pre.length + mid.length ≤ j) → h.position c j < k') :
    body'.Dominated c k' v := by
  obtain ⟨site, hsite, hbefore⟩ := hdom
  cases site with
  | phi d =>
    refine ⟨.phi d, ⟨h.count ▸ hsite.1, h.phiDests_eq d ▸ hsite.2⟩, ?_⟩
    rwa [h.dominators_eq]
  | op d j =>
    obtain ⟨hd, op, hop, hdest⟩ := hsite
    have hj : d = b → j < pre.length ∨ pre.length + mid.length ≤ j := by
      rintro rfl
      by_contra hin
      obtain ⟨i, rfl⟩ : ∃ i, j = pre.length + i := ⟨j - pre.length, by omega⟩
      rw [h.ops, List.getElem?_append_right (by omega), Nat.add_sub_cancel_left,
        List.getElem?_append_left (by omega)] at hop
      exact hv (mem_dests.2 ⟨op, List.mem_of_getElem? hop, hdest⟩)
    refine ⟨.op d (h.position d j), ⟨h.count ▸ hd, op.mapUses r, ?_, ?_⟩, ?_⟩
    · rw [h.getElem?_position hj, hop, Option.map_some]
    · rw [Op.dest?_mapUses, hdest]
    · rw [h.dominators_eq]
      simp only [isDefinedBefore] at hbefore ⊢
      split at hbefore
      next heq => grind
      next hne => rwa [if_neg hne]

theorem dominated_of_outside (hv : v ∉ dests mid) (hk : Outside b pre.length mid.length c k)
    (hdom : body.Dominated c k v) : body'.Dominated c (h.position c k) v :=
  h.dominated_of_position hv hdom fun _ hjk hj => h.position_lt hj hk hjk

theorem dominated_start (hv : v ∉ dests mid) (hdom : body.Dominated b pre.length v) :
    body'.Dominated b pre.length v := by
  refine h.dominated_of_position hv hdom fun j hj _ => ?_
  rwa [h.position_self, shifted, if_neg (by omega)]

end Spliced

/-! ## Places behind a place -/

def Behind (body : Body) (b : BlockId) (i : Nat) (c : BlockId) (k : Nat) : Prop :=
  if c = b then i ≤ k else body.dominators.dominates b c = true

theorem Dominated.of_behind {body : Body} {b c : BlockId} {i k : Nat} (hv : body.Dominated b i v)
    (hb : body.graph.Reaches 0 b) (hc : body.graph.Reaches 0 c) (hbehind : body.Behind b i c k) :
    body.Dominated c k v := by
  obtain ⟨site, hsite, hbefore⟩ := hv
  refine ⟨site, hsite, ?_⟩
  unfold Behind at hbehind
  split at hbehind
  next heq =>
    subst heq
    cases site with
    | phi d => exact hbefore
    | op d j =>
      simp only [isDefinedBefore] at hbefore ⊢
      split at hbefore
      · grind
      · rwa [if_neg ‹_›]
  next hne =>
    have htrans : ∀ d, body.dominators.dominates d b = true →
        body.dominators.dominates d c = true :=
      fun d hd => Dominators.dominates_trans hb hc hd hbehind
    cases site with
    | phi d => exact htrans d hbefore
    | op d j =>
      simp only [isDefinedBefore] at hbefore ⊢
      by_cases hdb : d = b
      · grind
      · rw [if_neg hdb] at hbefore
        have hdc : d ≠ c := by
          rintro rfl
          exact hne (Dominators.dominates_antisymm hc hb hbefore hbehind)
        rw [if_neg hdc]
        exact htrans d hbefore

/-! ## The check -/

/-- The new stretch does what is asked of it: it stands behind the arguments and the caught
exception, reads what is defined before it and defines what is read behind it. -/
structure Suits (body body' : Body) (r : Operand → Operand) (b : BlockId) (pre mid mid' : List Op) :
    Prop where
  place : ∃ op, (body.block b).ops[pre.length]? = some op ∧ op.isArgument = false ∧
    op.isMoveException = false
  values : body.valueCount ≤ body'.valueCount
  nodup : (dests mid').Nodup
  new : ∀ v ∈ dests mid', v < body'.valueCount ∧ (v ∈ dests mid ∨ v ∉ body.definedValues)
  reads : ∀ (j : Nat) (op : Op), mid'[j]? = some op → ∀ v ∈ op.uses,
    v ∈ dests (mid'.take j) ∨ body.Dominated b pre.length v
  keeps : ∀ v, v ∉ dests mid → r v = v
  replaces : ∀ v ∈ dests mid, body.ReadOutside b pre.length mid.length v →
    r v ∈ dests mid' ∨ body.Dominated b pre.length (r v)

namespace Spliced

variable {body body' : Body} {r : Operand → Operand} {b c : BlockId} {pre mid mid' post : List Op}

section

variable (h : Spliced body body' r b pre mid mid' post)
include h

theorem not_mem_mid (hchecked : body.Checked)
    (hv : body.Dominated b pre.length v) : v ∉ dests mid := by
  intro hmem
  obtain ⟨j, -, hsite⟩ := h.definedAt_mid hmem
  obtain ⟨site, hsite', hbefore⟩ := hv
  obtain rfl := hchecked.site_unique hsite' hsite
  simp only [isDefinedBefore, if_true, decide_eq_true_eq] at hbefore
  omega

theorem definedAt_mid' {j : Nat} (hv : v ∈ dests (mid'.take j)) :
    ∃ i < j, body'.DefinedAt v (.op b (pre.length + i)) := by
  obtain ⟨op, hop, hdest⟩ := mem_dests.1 hv
  obtain ⟨i, hi⟩ := List.mem_iff_getElem?.1 hop
  rw [List.getElem?_take] at hi
  split at hi
  · have hlt := (List.getElem?_eq_some_iff.1 hi).1
    exact ⟨i, ‹_›, h.count ▸ h.inside, op, by rw [h.getElem?_mid hlt, hi], hdest⟩
  · cases hi

theorem dominated_of_mem_mid' {k : Nat} (hv : v ∈ dests mid')
    (hbehind : body'.Behind b (pre.length + mid'.length) c k) : body'.Dominated c k v := by
  obtain ⟨i, hi, hsite⟩ := h.definedAt_mid' (j := mid'.length) (by rwa [List.take_length])
  refine ⟨_, hsite, ?_⟩
  unfold Behind at hbehind
  simp only [isDefinedBefore]
  split at hbehind
  · grind
  · rwa [if_neg (Ne.symm ‹_›)]

end

variable (h : Spliced body body' r b pre mid mid' post) (hsuits : Suits body body' r b pre mid mid')
  (hchecked : body.Checked)
include h hsuits hchecked

theorem dominated_position {k : Nat} (hc : c < body.blockCount)
    (hk : Outside b pre.length mid.length c k)
    (hread : body.ReadOutside b pre.length mid.length v) (hdom : body.Dominated c k v) :
    body'.Dominated c (h.position c k) (r v) := by
  by_cases hv : v ∈ dests mid
  · have hbehind : body'.Behind b (pre.length + mid'.length) c (h.position c k) := by
      obtain ⟨j, hj, hsite⟩ := h.definedAt_mid hv
      obtain ⟨site, hsite', hbefore⟩ := hdom
      obtain rfl := hchecked.site_unique hsite' hsite
      simp only [isDefinedBefore] at hbefore
      unfold Behind
      by_cases hcb : c = b
      · subst hcb
        rw [if_pos rfl] at hbefore ⊢
        have := hk rfl
        have := of_decide_eq_true hbefore
        rw [h.position_self, shifted, if_pos (by omega)]
        omega
      · rw [if_neg hcb, h.dominators_eq]
        rwa [if_neg (Ne.symm hcb)] at hbefore
    rcases hsuits.replaces v hv hread with hnew | hold
    · exact h.dominated_of_mem_mid' hnew hbehind
    · refine (h.dominated_start (h.not_mem_mid hchecked hold) hold).of_behind ?_ ?_ ?_
      · rw [h.graph_eq]
        exact (hchecked.block b h.inside).reachable
      · rw [h.graph_eq]
        exact (hchecked.block c hc).reachable
      · unfold Behind at hbehind ⊢
        split at hbehind
        · grind
        · rwa [if_neg ‹_›]
  · rw [hsuits.keeps v hv]
    exact h.dominated_of_outside hv hk hdom

theorem free_behind {i : Nat} {old : Op} (hi : pre.length + mid.length ≤ i)
    (hold : (body.block b).ops[i]? = some old) :
    old.isArgument = false ∧ old.isMoveException = false := by
  obtain ⟨-, hargument, hcaught⟩ :=
    checkPlacement_eq_ok.1 ((hchecked.block b h.inside).placed i old hold)
  obtain ⟨first, hfirst, hnone, hnone'⟩ := hsuits.place
  by_cases hlt : pre.length < i
  · constructor <;> by_contra hnot <;> rw [Bool.not_eq_false] at hnot
    · have hall := List.all_eq_true.1 (hargument hnot).2 first
        (List.mem_iff_getElem?.2 ⟨pre.length, by rwa [List.getElem?_take, if_pos hlt]⟩)
      rw [hnone] at hall
      cases hall
    · have := (hcaught hnot).1
      omega
  · obtain rfl : i = pre.length := by omega
    obtain rfl := Option.some.inj (hfirst.symm.trans hold)
    exact ⟨hnone, hnone'⟩

theorem checkedBlock (hc : c < body.blockCount) : body'.CheckedBlock c := by
  have hblock := hchecked.block c hc
  constructor
  case reachable =>
    rw [h.graph_eq]
    exact hblock.reachable
  case terminator =>
    rw [h.terminator?_eq, Option.isSome_map]
    exact hblock.terminator
  case placed =>
    intro k op hop
    rw [checkPlacement_eq_ok]
    rcases h.cases_getElem? hop with ⟨i, old, hi, hold, rfl, rfl⟩ | ⟨rfl, j, hj, rfl⟩
    · obtain ⟨hterm, hargument, hcaught⟩ := checkPlacement_eq_ok.1 (hblock.placed i old hold)
      simp only [Op.isTerminator_mapUses, Op.isArgument_mapUses, Op.isMoveException_mapUses,
        h.isHandlerEntry_eq]
      have hpost := List.length_pos_iff.2 h.post_ne
      by_cases hcb : c = b
      · subst hcb
        rw [h.ops] at hterm hargument
        rw [h.position_self, h.ops', shifted]
        rcases hi rfl with hlt | hge
        · rw [if_neg (by omega), List.take_append_of_le_length (by simpa using Nat.le_of_lt hlt)]
          rw [List.take_append_of_le_length (Nat.le_of_lt hlt)] at hargument
          refine ⟨fun ht => ?_, fun ha => ⟨(hargument ha).1, ?_⟩, hcaught⟩
          · grind
          · rw [← List.map_take, List.all_map]
            simpa [Function.comp_def] using (hargument ha).2
        · rw [if_pos hge]
          obtain ⟨hnone, hnone'⟩ := h.free_behind hsuits hchecked hge hold
          refine ⟨fun ht => ?_, fun ha => ?_, fun hm => ?_⟩
          · grind
          · simp [hnone] at ha
          · simp [hnone'] at hm
      · rw [h.position_of_ne hcb, h.others c hcb, List.length_map]
        refine ⟨hterm, fun ha => ⟨(hargument ha).1, ?_⟩, hcaught⟩
        rw [← List.map_take, List.all_map]
        simpa [Function.comp_def] using (hargument ha).2
    · have hplain := h.plain op (List.mem_append_right _ (List.mem_of_getElem? hj))
      simp only [Op.isPlain, Bool.and_eq_true, Bool.not_eq_true'] at hplain
      simp [hplain]
  case throws_at_end =>
    by_cases hcb : c = b
    · subst hcb
      obtain ⟨-, -, -, hthrows⟩ := h.throws_behind
      rw [hthrows]
      exact hblock.throws_at_end
    · rw [Block.throwsAtEnd_congr (h.canThrow_others hcb) (by rw [h.handlers])]
      exact hblock.throws_at_end
  case preds_nodup =>
    rw [h.preds]
    exact hblock.preds_nodup
  case preds_edge =>
    intro p hp
    rw [h.preds] at hp
    rw [h.count, h.successors_eq]
    exact hblock.preds_edge p hp
  case successors =>
    intro s hs
    rw [h.successors_eq] at hs
    rw [h.count, h.preds]
    exact hblock.successors s hs
  case arity =>
    intro phi hphi
    rw [h.phis] at hphi
    obtain ⟨old, hold, rfl⟩ := List.mem_map.1 hphi
    rw [h.preds, List.length_map]
    exact hblock.arity old hold

omit hsuits hchecked in
/-- The definitions outside the stretch, which both bodies have. -/
theorem exists_definedValues_perm : ∃ rest, body.definedValues.Perm (dests mid ++ rest) ∧
    body'.definedValues.Perm (dests mid' ++ rest) := by
  let kept : BlockId → List Operand := fun c =>
    if c = b then (body.block b).phiDests ++ (dests pre ++ dests post)
      else (body.block c).definedValues
  have hmove : ∀ xs, ((body.block b).phiDests ++ (dests pre ++ (xs ++ dests post))).Perm
      (xs ++ ((body.block b).phiDests ++ (dests pre ++ dests post))) := fun xs =>
    ((List.perm_append_comm_assoc _ _ _).append_left _).trans (List.perm_append_comm_assoc _ _ _)
  refine ⟨body.blockIds.flatMap kept, ?_, ?_⟩
  · refine flatMap_perm_of_mem (a := b) List.nodup_range (mem_blockIds.2 h.inside)
      (fun c hc => (if_neg hc).symm) ?_
    have hself : (body.block b).definedValues =
        (body.block b).phiDests ++ (dests pre ++ (dests mid ++ dests post)) := by
      rw [Block.definedValues, Block.opDests, h.ops]
      change _ ++ dests _ = _
      rw [dests_append, dests_append]
    rw [hself, show kept b = _ from if_pos rfl]
    exact hmove _
  · have hids : body'.blockIds = body.blockIds := by
      rw [blockIds, blockIds, show body'.blocks.size = body.blocks.size from h.count]
    rw [definedValues, hids]
    refine flatMap_perm_of_mem (a := b) List.nodup_range (mem_blockIds.2 h.inside)
      (fun c hc => ?_) ?_
    · rw [show kept c = _ from if_neg hc, Block.definedValues, Block.opDests, h.others c hc,
        h.phiDests_eq]
      exact congrArg _ (dests_mapUses r _)
    · have hself : (body'.block b).definedValues =
          (body.block b).phiDests ++ (dests pre ++ (dests mid' ++ dests post)) := by
        rw [Block.definedValues, Block.opDests, h.ops', h.phiDests_eq]
        change _ ++ dests _ = _
        rw [dests_append, dests_append, dests_mapUses, dests_mapUses]
      rw [hself, show kept b = _ from if_pos rfl]
      exact hmove _

/-- A body with another stretch passes the check as it did before. -/
theorem checked : body'.Checked := by
  obtain ⟨rest, hperm, hperm'⟩ := h.exists_definedValues_perm
  have hnodup := hperm.nodup_iff.1 hchecked.defined_nodup
  have hrest : ∀ v ∈ rest, v ∈ body.definedValues := fun v hv =>
    hperm.mem_iff.2 (List.mem_append_right _ hv)
  constructor
  case entry_preds =>
    rw [h.preds]
    exact hchecked.entry_preds
  case block => exact fun c hc => h.checkedBlock hsuits hchecked (h.count ▸ hc)
  case defined_nodup =>
    rw [hperm'.nodup_iff, List.nodup_append]
    rw [List.nodup_append] at hnodup
    refine ⟨hsuits.nodup, hnodup.2.1, ?_⟩
    rintro v hv _ hv' rfl
    rcases (hsuits.new v hv).2 with hmem | hnew
    · exact hnodup.2.2 v hmem v hv' rfl
    · exact hnew (hrest v hv')
  case defined_lt =>
    intro v hv
    rcases List.mem_append.1 (hperm'.mem_iff.1 hv) with hmem | hmem
    · exact (hsuits.new v hmem).1
    · exact Nat.lt_of_lt_of_le (hchecked.defined_lt v (hrest v hmem)) hsuits.values
  case phi =>
    intro c hc phi hphi e he
    rw [h.count] at hc
    rw [h.phis] at hphi
    obtain ⟨old, hold, rfl⟩ := List.mem_map.1 hphi
    rw [h.preds, List.zip_map_left] at he
    obtain ⟨⟨v, p⟩, hmem, rfl⟩ := List.mem_map.1 he
    have hp := ((hchecked.block c hc).preds_edge p (List.of_mem_zip hmem).2).1
    change body'.Dominated p (body'.exitPosition p c) (r v)
    rw [h.exitPosition_eq]
    exact h.dominated_position hsuits hchecked hp (h.outside_exitPosition p c)
      (.inl ⟨c, old, hold, (List.of_mem_zip hmem).1⟩) (hchecked.phi c hc old hold _ hmem)
  case use =>
    intro c hc k op hop v hv
    rw [h.count] at hc
    rcases h.cases_getElem? hop with ⟨i, old, hi, hold, rfl, rfl⟩ | ⟨rfl, j, hj, rfl⟩
    · rw [Op.uses_mapUses] at hv
      obtain ⟨u, hu, rfl⟩ := List.mem_map.1 hv
      exact h.dominated_position hsuits hchecked hc (fun hcb => (hi hcb).imp_left Nat.le_of_lt)
        (.inr ⟨c, i, old, hold, hu, hi⟩) (hchecked.use c hc i old hold u hu)
    · rcases hsuits.reads j op hj v hv with hnew | hold
      · obtain ⟨i, hi, hsite⟩ := h.definedAt_mid' hnew
        exact ⟨_, hsite, by simpa [isDefinedBefore] using hi⟩
      · have hreach : body'.graph.Reaches 0 c := by
          rw [h.graph_eq]
          exact (hchecked.block c hc).reachable
        refine (h.dominated_start (h.not_mem_mid hchecked hold) hold).of_behind hreach hreach ?_
        unfold Behind
        rw [if_pos rfl]
        omega

end Spliced

end Body

end Ssa

end BytecodeOpt
