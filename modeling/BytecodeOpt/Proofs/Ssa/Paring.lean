import BytecodeOpt.Proofs.Ssa.Reachable
import BytecodeOpt.Proofs.Ssa.Retargeting

/-!
# Paring a body down

Operations and phis are dropped, others stand in for those that stay, and edges go.  What can still
be reached is sound as before, if what is read is still defined.
-/

namespace BytecodeOpt

/-- One operation can stand where another stood. -/
structure Op.StandsFor (op' op : Op) : Prop where
  isTerminator : op'.isTerminator = op.isTerminator
  isArgument : op'.isArgument = op.isArgument
  isMoveException : op'.isMoveException = op.isMoveException
  canThrow : op'.canThrow = true → op.canThrow = true
  dest : ∀ v, op'.dest? = some v → op.dest? = some v

theorem Op.StandsFor.refl (op : Op) : op.StandsFor op :=
  ⟨rfl, rfl, rfl, id, fun _ => id⟩

namespace Ssa

/-! ## Positions among the operations that stay -/

section

variable {α β : Type} {g : α → Option β} {xs : List α} {i j k : Nat} {x : α} {y : β}

/-- Where an element goes when elements before it are dropped. -/
def keptBefore (g : α → Option β) (xs : List α) (k : Nat) : Nat := ((xs.take k).filterMap g).length

theorem take_keptBefore (g : α → Option β) (xs : List α) (k : Nat) :
    (xs.filterMap g).take (keptBefore g xs k) = (xs.take k).filterMap g := by
  rw [keptBefore, ← List.prefix_iff_eq_take.1 ((List.take_prefix k xs).filterMap g)]

theorem keptBefore_length (g : α → Option β) (xs : List α) :
    keptBefore g xs xs.length = (xs.filterMap g).length := by
  rw [keptBefore, List.take_length]

theorem keptBefore_succ (hx : xs[k]? = some x) :
    keptBefore g xs (k + 1) = keptBefore g xs k + (g x).toList.length := by
  rw [keptBefore, keptBefore, List.take_add_one, hx, List.filterMap_append, List.length_append]
  cases hg : g x <;> simp [hg]

theorem keptBefore_mono (h : j ≤ k) : keptBefore g xs j ≤ keptBefore g xs k :=
  ((List.take_prefix_take_left h).filterMap g).length_le

theorem keptBefore_lt (hx : xs[j]? = some x) (hy : g x = some y) (h : j < k) :
    keptBefore g xs j < keptBefore g xs k := by
  have hsucc := keptBefore_succ (g := g) hx
  have hmono : keptBefore g xs (j + 1) ≤ keptBefore g xs k := keptBefore_mono h
  simp only [hy, Option.toList_some, List.length_singleton] at hsucc
  omega

theorem getElem?_keptBefore (hx : xs[k]? = some x) (hy : g x = some y) :
    (xs.filterMap g)[keptBefore g xs k]? = some y := by
  obtain ⟨hlt, rfl⟩ := List.getElem?_eq_some_iff.1 hx
  conv_lhs => rw [← List.take_append_drop k xs, List.drop_eq_getElem_cons hlt,
    List.filterMap_append,
    List.filterMap_cons_some hy]
  rw [List.getElem?_append_right (by simp [keptBefore])]
  simp [keptBefore]

theorem exists_of_getElem?_filterMap (h : (xs.filterMap g)[i]? = some y) :
    ∃ k x, xs[k]? = some x ∧ g x = some y ∧ i = keptBefore g xs k := by
  induction xs generalizing i with
  | nil => simp at h
  | cons x xs ih =>
    cases hg : g x with
    | none =>
      rw [List.filterMap_cons_none hg] at h
      obtain ⟨k, x', hx, hy, rfl⟩ := ih h
      exact ⟨k + 1, x', hx, hy, by simp [keptBefore, hg]⟩
    | some y' =>
      rw [List.filterMap_cons_some hg] at h
      cases i with
      | zero =>
        obtain rfl : y' = y := by simpa using h
        exact ⟨0, x, rfl, hg, rfl⟩
      | succ i =>
        obtain ⟨k, x', hx, hy, rfl⟩ := ih (by simpa using h)
        exact ⟨k + 1, x', hx, hy, by simp [keptBefore, hg]⟩

theorem length_filterMap_le_keptBefore (hk : k ≤ xs.length) :
    (xs.filterMap g).length + k ≤ keptBefore g xs k + xs.length := by
  conv_lhs => rw [← List.take_append_drop k xs, List.filterMap_append, List.length_append]
  have := List.length_filterMap_le g (xs.drop k)
  simp only [List.length_drop, keptBefore] at this ⊢
  omega

end

/-! ## Where a block throws -/

theorem Body.throwsAtEnd_iff {b : Block} : Body.throwsAtEnd b = true ↔ b.handlers = [] ∨
    ∀ i op, b.ops[i]? = some op → op.canThrow = true →
      b.ops.length ≤ i + 2 ∧ ∀ j op', b.ops[j]? = some op' → op'.canThrow = true → i = j := by
  constructor
  · intro h
    by_cases hhandlers : b.handlers = []
    · exact .inl hhandlers
    · refine .inr fun i op hop hthrow => ⟨length_le_of_throwsAtEnd h hhandlers hop hthrow,
        fun j op' hop' hthrow' => ?_⟩
      exact Option.some.inj ((Block.throwingIndex?_of_throwsAtEnd h hhandlers hop hthrow).symm.trans
        (Block.throwingIndex?_of_throwsAtEnd h hhandlers hop' hthrow'))
  · rintro (hhandlers | hone)
    · simp [throwsAtEnd, hhandlers]
    · rw [throwsAtEnd, Bool.or_eq_true]
      right
      cases hfind : b.ops.findIdx? Op.canThrow with
      | none => rfl
      | some i =>
        obtain ⟨hlt, hthrow, hbefore⟩ := List.findIdx?_eq_some_iff_getElem.1 hfind
        obtain ⟨hlength, honly⟩ := hone i _ (List.getElem?_eq_getElem hlt) hthrow
        have hcount : b.ops.countP Op.canThrow = 1 := by
          have hnone : ∀ op ∈ b.ops.take i ++ b.ops.drop (i + 1), ¬ op.canThrow = true := by
            intro op hop hthrow'
            rcases List.mem_append.1 hop with hop | hop
            · obtain ⟨j, hj⟩ := List.mem_iff_getElem?.1 hop
              rw [List.getElem?_take] at hj
              split at hj
              · exact absurd (honly j op hj hthrow') (by omega)
              · cases hj
            · obtain ⟨j, hj⟩ := List.mem_iff_getElem?.1 hop
              rw [List.getElem?_drop] at hj
              exact absurd (honly _ op hj hthrow') (by omega)
          have hzero := List.countP_eq_zero.2 hnone
          rw [List.countP_append] at hzero
          conv_lhs => rw [← List.take_append_drop i b.ops, List.drop_eq_getElem_cons hlt]
          rw [List.countP_append, List.countP_cons_of_pos hthrow]
          omega
        simp only [hcount, BEq.rfl, Bool.true_and, Bool.or_eq_true, beq_iff_eq]
        omega

theorem Block.Terminated.normalSuccessors_filterMap {b b' : Block} {g : Op → Option Op}
    (h : b.Terminated)
    (hops : b'.ops = b.ops.filterMap g) (hlast : ∀ op ∈ b.ops, op.isTerminator = true →
      ∃ op', g op = some op' ∧ op'.isTerminator = true ∧ op'.targets = op.targets) :
    b'.normalSuccessors = b.normalSuccessors := by
  obtain ⟨before, last, hops', hterm, -⟩ := h
  obtain ⟨last', hg, hterm', htargets⟩ := hlast last (by simp [hops']) hterm
  have hend : b'.ops = before.filterMap g ++ [last'] := by grind
  simp [normalSuccessors, Terminated.terminator? hend hterm', Terminated.terminator? hops' hterm,
    Op.successors, htargets]

namespace Body

/-- `g` says what stands in for each operation, or that it is dropped. -/
structure Pared (body body' : Body) (g : BlockId → Op → Option Op) : Prop where
  count : body'.blockCount = body.blockCount
  values : body'.valueCount = body.valueCount
  ops : ∀ b, (body'.block b).ops = (body.block b).ops.filterMap (g b)
  handlers : ∀ b, (body'.block b).handlers = (body.block b).handlers
  stands : ∀ b, ∀ op ∈ (body.block b).ops, ∀ op', g b op = some op' → op'.StandsFor op
  stays : ∀ b, ∀ op ∈ (body.block b).ops, op.isTerminator = true → (g b op).isSome = true
  phis : ∀ b, (body'.block b).phiDests.Sublist (body.block b).phiDests
  preds : ∀ b, (body'.block b).preds.Sublist (body.block b).preds
  preds_iff : ∀ b, body'.Reached b → ∀ p ∈ (body.block b).preds,
    (p ∈ (body'.block b).preds ↔ b ∈ (body'.block p).successors)
  arity : ∀ b, body'.Reached b → ∀ phi ∈ (body'.block b).phis, phi.operands.length =
    (body'.block b).preds.length
  edges : ∀ b, (body'.block b).normalSuccessors ⊆ (body.block b).normalSuccessors
  /-- An edge that a block can take normally and by an exception does not become an exceptional
  one. -/
  mixed : ∀ b, ∀ t ∈ (body.block b).handlerTargets, t ∈ (body.block b).normalSuccessors →
    t ∈ (body'.block b).normalSuccessors

/-- All edges stay. -/
theorem pared_of_edges {body body' : Body} {g : BlockId → Op → Option Op}
    (hblocks : ∀ b, body.Reached b → body.CheckedBlock b)
    (hcount : body'.blockCount = body.blockCount) (hvalues : body'.valueCount = body.valueCount)
    (hops : ∀ b, (body'.block b).ops = (body.block b).ops.filterMap (g b))
    (hhandlers : ∀ b, (body'.block b).handlers = (body.block b).handlers)
    (hpreds : ∀ b, (body'.block b).preds = (body.block b).preds)
    (hphis : ∀ b, (body'.block b).phiDests.Sublist (body.block b).phiDests)
    (harity : ∀ b, ∀ phi' ∈ (body'.block b).phis, ∃ phi ∈ (body.block b).phis,
      phi'.operands.length = phi.operands.length)
    (hstands : ∀ b, ∀ op ∈ (body.block b).ops, ∀ op', g b op = some op' → op'.StandsFor op)
    (hstays : ∀ b, ∀ op ∈ (body.block b).ops, op.isTerminator = true → (g b op).isSome = true)
    (hnormal : ∀ b, (body'.block b).normalSuccessors = (body.block b).normalSuccessors) :
    Pared body body' g ∧ body'.graph = body.graph := by
  have hsuccessors : ∀ b, (body'.block b).successors = (body.block b).successors := fun b => by
    rw [Block.successors, hnormal, Block.handlerTargets, hhandlers]
    rfl
  have hgraph : body'.graph = body.graph := graph_congr hcount fun b _ => hsuccessors b
  have hblock : ∀ b, body'.Reached b → body.CheckedBlock b := fun b hb =>
    hblocks b (by rwa [Reached, ← hgraph])
  refine ⟨⟨hcount, hvalues, hops, hhandlers, hstands, hstays, hphis,
    fun b => (hpreds b) ▸ List.Sublist.refl _,
    fun b hb p hp => ?_, fun b hb phi' hphi' => ?_, fun b => (hnormal b) ▸ List.Subset.refl _,
    fun b t _ ht => (hnormal b).symm ▸ ht⟩, hgraph⟩
  · rw [hpreds, hsuccessors]
    exact ⟨fun hp => ((hblock b hb).preds_edge p hp).2, fun _ => hp⟩
  · obtain ⟨phi, hphi, hlength⟩ := harity b phi' hphi'
    rw [hlength, hpreds]
    exact (hblock b hb).arity phi hphi

namespace Pared

variable {body body' : Body} {g : BlockId → Op → Option Op} {b p t : BlockId}
  {i k : Nat} {v : Operand} {site : DefSite} {op op' : Op}

variable (h : Pared body body' g)
include h

def place (_ : Pared body body' g) (b : BlockId) (k : Nat) :
    Nat := keptBefore (g b) (body.block b).ops k

theorem getElem?_place (hop : (body.block b).ops[k]? = some op) (hkept : g b op = some op') :
    (body'.block b).ops[h.place b k]? = some op' := by
  rw [h.ops]
  exact getElem?_keptBefore hop hkept

theorem exists_of_getElem? (hop' : (body'.block b).ops[i]? = some op') :
    ∃ k op, (body.block b).ops[k]? = some op ∧ g b op = some op' ∧ i = h.place b k ∧
      op'.StandsFor op := by
  rw [h.ops] at hop'
  obtain ⟨k, op, hop, hkept, rfl⟩ := exists_of_getElem?_filterMap hop'
  exact ⟨k, op, hop, hkept, rfl, h.stands b op (List.mem_of_getElem? hop) op' hkept⟩

theorem place_length (b : BlockId) :
    h.place b (body.block b).ops.length = (body'.block b).ops.length := by
  rw [h.ops]
  exact keptBefore_length ..

/-! ## Edges -/

theorem handlerTargets_eq (b : BlockId) :
    (body'.block b).handlerTargets = (body.block b).handlerTargets := by
  rw [Block.handlerTargets, h.handlers, Block.handlerTargets]

theorem successors_subset (b : BlockId) :
    (body'.block b).successors ⊆ (body.block b).successors := by
  intro t ht
  rw [Block.mem_successors] at ht ⊢
  rw [h.handlerTargets_eq] at ht
  exact ht.imp_left fun hnormal => h.edges b hnormal

theorem isExceptionalSuccessor_eq (b t : BlockId) :
    (body'.block b).isExceptionalSuccessor t = (body.block b).isExceptionalSuccessor t := by
  rw [Bool.eq_iff_iff]
  simp only [Block.isExceptionalSuccessor, Block.isHandlerTarget, h.handlerTargets_eq,
    Bool.and_eq_true,
    Bool.not_eq_true', List.contains_eq_mem, decide_eq_true_eq, decide_eq_false_iff_not]
  exact and_congr_right fun ht =>
    ⟨fun hnot hmem => hnot (h.mixed b t ht hmem), fun hnot hmem => hnot (h.edges b hmem)⟩

theorem path {allowed : BlockId → Prop} (hpath : body'.graph.Path allowed 0 b) :
    body.graph.Path allowed 0 b := by
  refine hpath.of_successors (by rw [size_graph, size_graph, h.count]) fun x y hy => ?_
  rw [successors_graph] at hy ⊢
  exact h.successors_subset x hy

theorem reached (hb : body'.Reached b) : body.Reached b := h.path hb

theorem dominates {a : BlockId} (hb : body'.Reached b)
    (hdom : body.dominators.dominates a b = true) :
    body'.dominators.dominates a b = true := by
  rw [Body.dominators, Dominators.dominates_iff (h.reached hb)] at hdom
  rw [Body.dominators, Dominators.dominates_iff hb]
  exact fun hpath => hdom (h.path hpath)

/-! ## Definitions -/

/-- Where a definition is found after the paring. -/
def movedSite (h : Pared body body' g) : DefSite → DefSite
  | .phi b => .phi b
  | .op b i => .op b (h.place b i)

/-- Whatever defines the value stays. -/
structure Keeps (_ : Pared body body' g) (v : Operand) : Prop where
  phi : ∀ b, v ∈ (body.block b).phiDests → v ∈ (body'.block b).phiDests
  op : ∀ b, ∀ op ∈ (body.block b).ops, op.dest? = some v → ∃ op', g b op = some op' ∧
    op'.dest? = some v

theorem exists_definedAt (hsite : body'.DefinedAt v site) :
    ∃ old, body.DefinedAt v old ∧ site = h.movedSite old ∧ old.block = site.block := by
  cases site with
  | phi b => exact ⟨.phi b, ⟨h.count ▸ hsite.1, (h.phis b).subset hsite.2⟩, rfl, rfl⟩
  | op b i =>
    obtain ⟨hb, op', hi, hdest⟩ := hsite
    obtain ⟨k, op, hop, -, rfl, hstands⟩ := h.exists_of_getElem? hi
    exact ⟨.op b k, ⟨h.count ▸ hb, op, hop, hstands.dest v hdest⟩, rfl, rfl⟩

theorem dominated (hb : body'.Reached b) (hv : body.Dominated b k v) (hkeeps : h.Keeps v)
    (hi : h.place b k ≤ i) :
    body'.Dominated b i v := by
  obtain ⟨site, hsite, hbefore⟩ := hv
  refine ⟨h.movedSite site, ?_⟩
  cases site with
  | phi d => exact ⟨⟨h.count ▸ hsite.1, hkeeps.phi d hsite.2⟩, h.dominates hb hbefore⟩
  | op d j =>
    obtain ⟨hd, op, hop, hdest⟩ := hsite
    obtain ⟨op', hkept, hdest'⟩ := hkeeps.op d op (List.mem_of_getElem? hop) hdest
    refine ⟨⟨h.count ▸ hd, op', h.getElem?_place hop hkept, hdest'⟩, ?_⟩
    simp only [movedSite, isDefinedBefore] at hbefore ⊢
    split at hbefore
    next heq =>
      subst heq
      have hlt := keptBefore_lt hop hkept (of_decide_eq_true hbefore)
      rw [if_pos rfl]
      exact decide_eq_true (Nat.lt_of_lt_of_le hlt hi)
    next hne =>
      rw [if_neg hne]
      exact h.dominates hb hbefore

/-! ## Blocks -/

section

variable (hblocks : ∀ b, body.Reached b → body.CheckedBlock b)
include hblocks

theorem exists_pred (hb : body'.Reached b) (hne : b ≠ 0) : ∃ p, p ∈ (body'.block b).preds := by
  obtain ⟨p, hp, hmem⟩ : ∃ p, body'.Reached p ∧ b ∈ (body'.block p).successors := by
    cases hb with
    | refl => exact absurd rfl hne
    | snoc hpath hmem _ _ => exact ⟨_, hpath, by rwa [successors_graph] at hmem⟩
  have hpred := ((hblocks p (h.reached hp)).successors b (h.successors_subset p hmem)).2
  exact ⟨p, (h.preds_iff b hb p hpred).2 hmem⟩

variable (hpreds : (body.block 0).preds = [])
include hpreds

theorem isHandlerEntry (hb : body'.Reached b) (hentry : body.isHandlerEntry b = true) :
    body'.isHandlerEntry b = true := by
  simp only [Body.isHandlerEntry, Bool.and_eq_true, Bool.not_eq_true', List.isEmpty_eq_false_iff,
    List.all_eq_true]
    at hentry ⊢
  obtain ⟨hne, hall⟩ := hentry
  have hzero : b ≠ 0 := by
    rintro rfl
    exact hne hpreds
  obtain ⟨q, hq⟩ := h.exists_pred hblocks hb hzero
  refine ⟨List.ne_nil_of_mem hq, fun p hp => ?_⟩
  rw [h.isExceptionalSuccessor_eq]
  exact hall p ((h.preds b).subset hp)

theorem checkedBlock (hb : body'.Reached b) : body'.CheckedBlock b := by
  have hblock := hblocks b (h.reached hb)
  -- the terminator is the last operation and stays
  obtain ⟨init, last, hinit, hterm, -⟩ := hblock.terminated
  have hmem : last ∈ (body.block b).ops := by simp [hinit]
  obtain ⟨last', hlast'⟩ := Option.isSome_iff_exists.1 (h.stays b last hmem hterm)
  have hstands := h.stands b last hmem last' hlast'
  have hops' : (body'.block b).ops = init.filterMap (g b) ++ [last'] := by
    rw [h.ops, hinit, List.filterMap_append]
    simp [hlast']
  refine ⟨hb, ?_, fun i op' hop' => ?_, ?_, (h.preds b).nodup hblock.preds_nodup, fun p hp => ?_,
    fun s hmem => ?_,
    h.arity b hb⟩
  · rw [Block.terminator?, hops']
    simp [hstands.isTerminator, hterm]
  · obtain ⟨k, op, hop, hkept, rfl, hstands⟩ := h.exists_of_getElem? hop'
    obtain ⟨hend, hargument, hcaught⟩ := checkPlacement_eq_ok.1 (hblock.placed k op hop)
    refine checkPlacement_eq_ok.2 ⟨fun hterm => ?_, fun harg => ?_, fun hexc => ?_⟩
    · have hk := hend (hstands.isTerminator ▸ hterm)
      have hk' : k = init.length := by grind
      rw [hops', place, keptBefore, hk', hinit]
      simp
    · obtain ⟨hzero, hall⟩ := hargument (hstands.isArgument ▸ harg)
      refine ⟨hzero, ?_⟩
      rw [h.ops, place, take_keptBefore]
      rw [List.all_eq_true] at hall ⊢
      intro arg' harg'
      obtain ⟨arg, hmem, hkept⟩ := List.mem_filterMap.1 harg'
      rw [(h.stands b arg (List.mem_of_mem_take hmem) arg' hkept).isArgument]
      exact hall arg hmem
    · obtain ⟨rfl, hentry⟩ := hcaught (hstands.isMoveException ▸ hexc)
      exact ⟨by simp [place, keptBefore], h.isHandlerEntry hblocks hpreds hb hentry⟩
  · rw [throwsAtEnd_iff, h.handlers]
    refine (throwsAtEnd_iff.1 hblock.throws_at_end).imp_right fun hone i op' hop' hthrow => ?_
    obtain ⟨k, op, hop, -, rfl, hstands⟩ := h.exists_of_getElem? hop'
    obtain ⟨hlength, honly⟩ := hone k op hop (hstands.canThrow hthrow)
    have hk := (List.getElem?_eq_some_iff.1 hop).1
    refine ⟨?_, fun j other' hother' hthrow' => ?_⟩
    · have := length_filterMap_le_keptBefore (g := g b) hk.le
      rw [h.ops, place]
      omega
    · obtain ⟨l, other, hother, -, rfl, hstands'⟩ := h.exists_of_getElem? hother'
      rw [honly l other hother (hstands'.canThrow hthrow')]
  · have hp' := (h.preds b).subset hp
    exact ⟨h.count ▸ (hblock.preds_edge p hp').1, (h.preds_iff b hb p hp').1 hp⟩
  · obtain ⟨hlt, hpred⟩ := hblock.successors s (h.successors_subset b hmem)
    have hs' : body'.Reached s :=
      hb.snoc (by rwa [successors_graph]) (by rwa [size_graph, h.count]) trivial
    exact ⟨h.count ▸ hlt, (h.preds_iff s hs' b hpred).2 hmem⟩

end

variable (hs : body.Sound)
include hs

/-- Control leaves a block no earlier than before. -/
theorem place_exitPosition_le (hp : body'.Reached p) (t : BlockId) :
    h.place p (body.exitPosition p t) ≤ body'.exitPosition p t := by
  have hblock := hs.block p (h.reached hp)
  have hlength : ∀ k ≤ (body.block p).ops.length, h.place p k ≤ (body'.block p).ops.length :=
    fun k hk => by
    rw [← h.place_length]
    exact keptBefore_mono hk
  simp only [exitPosition, h.isExceptionalSuccessor_eq]
  split
  · cases hindex : (body'.block p).throwingIndex? with
    | none =>
      refine hlength _ ?_
      cases hk : (body.block p).throwingIndex? with
      | none => exact Nat.le_refl _
      | some k =>
        obtain ⟨-, op, hop, -⟩ := Block.throwingIndex?_eq_some hk
        exact (List.getElem?_eq_some_iff.1 hop).1.le
    | some i =>
      obtain ⟨hhandlers, op', hop', hthrow⟩ := Block.throwingIndex?_eq_some hindex
      obtain ⟨k, op, hop, -, rfl, hstands⟩ := h.exists_of_getElem? hop'
      rw [h.handlers] at hhandlers
      rw [Block.throwingIndex?_of_throwsAtEnd hblock.throws_at_end hhandlers hop
        (hstands.canThrow hthrow)]
      exact Nat.le_refl _
  · exact hlength _ (Nat.le_refl _)

/-! ## The whole body -/

theorem sound
    (hphi : ∀ b, body'.Reached b → ∀ phi ∈ (body'.block b).phis,
      ∀ e ∈ phi.operands.zip (body'.block b).preds,
      body'.Reached e.2 → body'.Dominated e.2 (body'.exitPosition e.2 b) e.1)
    (huse : ∀ b, body'.Reached b → ∀ (k : Nat) (op op' : Op), (body.block b).ops[k]? = some op →
      g b op = some op' →
      ∀ v ∈ op'.uses, body'.Dominated b (h.place b k) v) : body'.Sound where
  entry_preds := List.sublist_nil.1 (hs.entry_preds ▸ h.preds 0)
  block := fun _ hb => h.checkedBlock hs.block hs.entry_preds hb
  phis_nodup := fun b hb => (h.phis b).nodup (hs.phis_nodup b (h.reached hb))
  site_unique := fun v site other hsite hother hb hc => by
    obtain ⟨old, hold, rfl, heq⟩ := h.exists_definedAt hsite
    obtain ⟨old', hold', rfl, heq'⟩ := h.exists_definedAt hother
    rw [hs.site_unique v old old' hold hold' (heq ▸ h.reached hb) (heq' ▸ h.reached hc)]
  defined_lt := fun v site hsite hb => by
    obtain ⟨old, hold, -, heq⟩ := h.exists_definedAt hsite
    rw [h.values]
    exact hs.defined_lt v old hold (heq ▸ h.reached hb)
  phi := hphi
  use := fun b hb i op' hop' v hv => by
    obtain ⟨k, op, hop, hkept, rfl, -⟩ := h.exists_of_getElem? hop'
    exact huse b hb k op op' hop hkept v hv

end Pared

end Body

end Ssa

end BytecodeOpt
