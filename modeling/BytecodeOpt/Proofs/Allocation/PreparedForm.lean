import BytecodeOpt.Proofs.Allocation.Detours

/-!
# Detours and the check

A path through a body with detours is one through the body without them that lingers on the way, so
blocks dominate what they dominated before.  A handler that gives up the exception to a phi defines
it all the same.  Hence a body with detours passes the check.
-/

namespace BytecodeOpt.Allocation

open Ssa

theorem caught?_eq_some {b : Block} {dest : Operand} (h : caught? b = some dest) :
    ∃ rest, b.ops = .moveException dest :: rest := by
  unfold caught? at h
  split at h
  · rename_i rest hops
    cases h
    exact ⟨rest, hops⟩
  · cases h

theorem isSome_caught? {b : Block} {op : Op} (h : b.ops[0]? = some op)
    (hmove : op.isMoveException = true) :
    (caught? b).isSome = true := by
  cases hops : b.ops with
  | nil => simp [hops] at h
  | cons head rest =>
    obtain rfl : head = op := by simpa [hops] using h
    cases head <;> simp_all [Op.isMoveException, caught?]

namespace Detours

variable {d : Detours} {body : Body} {b s t : BlockId} {c : Option Operand} {i : Nat}

/-- The handler gives up an exception that it catches, which takes a pad on each of its edges. -/
structure Fits (d : Detours) (body : Body) : Prop where
  freed : caught? (body.block d.target) = d.freed
  catching : d.catching = d.freed.isSome
  all : d.freed ≠ none → d.sources = (body.block d.target).preds

theorem normalSuccessors_pad : (pad t s c).normalSuccessors = [t] := by
  cases c <;> rfl

theorem successors_pad : (pad t s c).successors = [t] := by
  cases c <;> rfl

theorem getElem?_pad {op : Op} (h : (pad t s c).ops[i]? = some op) :
    (op = .goto t ∧ i + 1 = (pad t s c).ops.length) ∨ ∃ v, c = some v ∧ i = 0 ∧
      op = .moveException v := by
  cases c with
  | none =>
    have hop : ([.goto t] : List Op)[i]? = some op := h
    rw [List.getElem?_singleton] at hop
    split at hop
    · cases hop
      exact .inl ⟨rfl, congrArg (· + 1) ‹i = 0›⟩
    · cases hop
  | some v =>
    have hop : ([.moveException v, .goto t] : List Op)[i]? = some op := h
    obtain _ | _ | i := i
    · exact .inr ⟨v, rfl, rfl, (Option.some.inj hop).symm⟩
    · exact .inl ⟨(Option.some.inj hop).symm, rfl⟩
    · cases hop

theorem exists_of_phi? {phi : Phi} (h : d.phi? body b = some phi) :
    ∃ dest, d.freed = some dest ∧ b = d.target ∧
      phi = ⟨dest, List.range' body.valueCount d.sources.length⟩ := by
  unfold phi? at h
  split at h
  · obtain ⟨dest, hfreed, rfl⟩ := Option.map_eq_some_iff.1 h
    exact ⟨dest, hfreed, ‹_›, rfl⟩
  · cases h

theorem Fits.exists_of_phi? (hfits : d.Fits body) {phi : Phi} (h : d.phi? body b = some phi) :
    ∃ rest, (body.block b).ops = .moveException phi.dest :: rest := by
  obtain ⟨dest, hfreed, rfl, rfl⟩ := Detours.exists_of_phi? h
  exact caught?_eq_some (hfits.freed.trans hfreed)

theorem Fits.isHandlerEntry (hfits : d.Fits body) (hc : body.Checked)
    (hb : b < body.blockCount) {phi : Phi}
    (h : d.phi? body b = some phi) : body.isHandlerEntry b = true := by
  obtain ⟨rest, hops⟩ := hfits.exists_of_phi? h
  have hplaced := (hc.block b hb).placed 0 (.moveException phi.dest) (by rw [hops]; rfl)
  exact ((Body.checkPlacement_eq_ok.1 hplaced).2.2 rfl).2

theorem Fits.phi?_entry (hfits : d.Fits body) (hc : body.Checked) (hentry : 0 < body.blockCount) :
    d.phi? body 0 = none := by
  cases hphi : d.phi? body 0 with
  | none => rfl
  | some phi =>
    have := hfits.isHandlerEntry hc hentry hphi
    simp [Body.isHandlerEntry, hc.entry_preds] at this

/-- The block that control came from when it is on its way. -/
def origin (d : Detours) (body : Body) (b : BlockId) : BlockId :=
  if b < body.blockCount then b else d.sources.getD (b - body.blockCount) b

theorem origin_old (hb : b < body.blockCount) : d.origin body b = b := if_pos hb

theorem origin_new (hs : d.sources[i]? = some s) : d.origin body (body.blockCount + i) = s := by
  rw [origin, if_neg (Nat.not_lt_of_le (Nat.le_add_right _ i)), Nat.add_sub_cancel_left,
    List.getD_eq_getElem?_getD,
    hs, Option.getD_some]

theorem origin_comesFrom (hs : s < body.blockCount) : d.origin body (d.comesFrom body s t) = s := by
  rcases d.edge_cases body s t with ⟨hfrom, -⟩ | ⟨i, hi, -, hfrom, -⟩
  · rw [hfrom, origin_old hs]
  · rw [hfrom, origin_new hi]

end Detours

namespace Detoured

variable {d : Detours} {body body' : Body} {b s t p : BlockId} {i j : Nat} {v : Operand}
  (h : Detoured d body body')
include h

/-! ## Edges -/

theorem cases (hb : b < body'.blockCount) :
    b < body.blockCount ∨ ∃ i s, d.sources[i]? = some s ∧ b = body.blockCount + i := by
  by_cases hlt : b < body.blockCount
  · exact .inl hlt
  · obtain ⟨i, rfl⟩ := Nat.exists_eq_add_of_le (Nat.le_of_not_lt hlt)
    rw [h.blockCount] at hb
    exact .inr ⟨i, _, List.getElem?_eq_getElem (Nat.lt_of_add_lt_add_left hb), rfl⟩

theorem lt_old (hb : b < body.blockCount) : b < body'.blockCount := by
  rw [h.blockCount]
  exact Nat.lt_add_right _ hb

theorem lt_new (hs : d.sources[i]? = some s) : body.blockCount + i < body'.blockCount := by
  rw [h.blockCount]
  exact Nat.add_lt_add_left (List.getElem?_eq_some_iff.1 hs).1 _

theorem source (hs : d.sources[i]? = some s) :
    s < body.blockCount ∧ d.target ∈ (body.block s).successors :=
  h.edge s (List.mem_of_getElem? hs)

theorem successors_new (hs : d.sources[i]? = some s) :
    (body'.block (body.blockCount + i)).successors = [d.target] := by
  rw [h.new i s hs, Detours.successors_pad]

theorem origin_lt (hb : b < body'.blockCount) : d.origin body b < body.blockCount := by
  rcases h.cases hb with hb | ⟨i, s, hs, rfl⟩
  · rwa [Detours.origin_old hb]
  · rw [Detours.origin_new hs]
    exact (h.source hs).1

theorem preds_old (hb : b < body.blockCount) :
    (body'.block b).preds = (body.block b).preds.map (d.comesFrom body · b) := by
  rw [h.old b hb, Detours.block]

/-- A pad has caught the exception that the phi picks up. -/
theorem dominated_caught (hcatching : d.catching = true) (hs : d.sources[i]? = some s) :
    body'.Dominated (body.blockCount + i) (body'.exitPosition (body.blockCount + i) d.target)
      (body.valueCount + i) := by
  have hcaught : d.padCaught? body i = some (body.valueCount + i) := if_pos hcatching
  have hblock := h.new i s hs
  rw [hcaught] at hblock
  refine ⟨.op (body.blockCount + i) 0, ⟨h.lt_new hs, .moveException (body.valueCount + i), by
    rw [hblock]; rfl, rfl⟩, ?_⟩
  simp only [Body.isDefinedBefore, if_true, Body.exitPosition, hblock]
  rfl

variable (hc : body.Checked)
include hc

theorem preds_nodup (hb : b < body'.blockCount) : (body'.block b).preds.Nodup := by
  rcases h.cases hb with hb | ⟨i, s, hs, rfl⟩
  · rw [h.preds_old hb]
    have hedge := (hc.block b hb).preds_edge
    exact (hc.block b hb).preds_nodup.map_on fun p hp q hq heq =>
      Detours.comesFrom_inj (hedge p hp).1 (hedge q hq).1 heq
  · rw [h.new i s hs]
    exact List.nodup_singleton s

variable (hfits : d.Fits body)
include hfits

theorem redirected (hb : b < body.blockCount) :
    Block.Redirected (d.dropped body b) (d.leadsTo body b) (body.block b) (body'.block b) where
  terminated := (hc.block b hb).terminated
  dropped := by
    intro op hop
    unfold Detours.dropped at hop
    cases hphi : d.phi? body b with
    | none => simp [hphi] at hop
    | some phi =>
      obtain ⟨rest, hops⟩ := hfits.exists_of_phi? hphi
      obtain rfl : op = .moveException phi.dest := by simpa [hphi, hops] using hop
      exact ⟨rfl, .inr rfl⟩
  ops := by rw [h.old b hb, Detours.block]
  handlers := by rw [h.old b hb, Detours.block]
  apart := by
    have hlt : ∀ t ∈ (body.block b).normalSuccessors ++ (body.block b).handlerTargets,
        t < body.blockCount := fun t ht =>
      ((hc.block b hb).successors t (Block.mem_successors.2 (List.mem_append.1 ht))).1
    exact fun s hs t ht heq => Detours.leadsTo_inj (hlt s hs) (hlt t ht) heq

theorem leadsTo_mem (hb : b < body.blockCount) (ht : t ∈ (body.block b).successors) :
    d.leadsTo body b t ∈ (body'.block b).successors := by
  rw [(h.redirected hc hfits hb).successors]
  exact List.mem_map_of_mem ht

theorem edge_cases (hb : b < body'.blockCount) (ht : t ∈ (body'.block b).successors) :
    (b < body.blockCount ∧ ∃ u ∈ (body.block b).successors, t = d.leadsTo body b u) ∨
      ∃ i s, d.sources[i]? = some s ∧ b = body.blockCount + i ∧ t = d.target := by
  rcases h.cases hb with hb | ⟨i, s, hs, rfl⟩
  · rw [(h.redirected hc hfits hb).successors] at ht
    obtain ⟨u, hu, rfl⟩ := List.mem_map.1 ht
    exact .inl ⟨hb, u, hu, rfl⟩
  · rw [h.successors_new hs] at ht
    exact .inr ⟨i, s, hs, rfl, List.mem_singleton.1 ht⟩

theorem mem_preds (hb : b < body'.blockCount) :
    p ∈ (body'.block b).preds ↔ p < body'.blockCount ∧ b ∈ (body'.block p).successors := by
  have hsucc {q t : BlockId} (hq : q < body.blockCount) (ht : t ∈ (body.block q).successors) :=
    (hc.block q hq).successors t ht
  rcases h.cases hb with hb | ⟨i, s, hs, rfl⟩
  · rw [h.preds_old hb, List.mem_map]
    constructor
    · rintro ⟨q, hq, rfl⟩
      obtain ⟨hlt, hedge⟩ := (hc.block b hb).preds_edge q hq
      rcases d.edge_cases body q b with ⟨hfrom, hto⟩ | ⟨i, hi, rfl, hfrom, -⟩
      · rw [hfrom]
        exact ⟨h.lt_old hlt, hto ▸ h.leadsTo_mem hc hfits hlt hedge⟩
      · rw [hfrom, h.successors_new hi]
        exact ⟨h.lt_new hi, List.mem_singleton_self _⟩
    · rintro ⟨hp, hedge⟩
      rcases h.edge_cases hc hfits hp hedge with ⟨hp, u, hu, heq⟩ | ⟨i, s, hs, rfl, rfl⟩
      · rcases d.edge_cases body p u with ⟨hfrom, hto⟩ | ⟨i, -, -, -, hto⟩
        · obtain rfl : b = u := heq.trans hto
          exact ⟨p, (hsucc hp hu).2, hfrom⟩
        · exact absurd (heq.trans hto) (Nat.ne_of_lt (Nat.lt_add_right i hb))
      · exact ⟨s, (hsucc (h.source hs).1 (h.source hs).2).2,
          (Detours.edge_of_getElem? h.nodup hs).1⟩
  · rw [h.new i s hs, Detours.pad, List.mem_singleton]
    constructor
    · rintro rfl
      refine ⟨h.lt_old (h.source hs).1, ?_⟩
      rw [← (Detours.edge_of_getElem? h.nodup hs).2]
      exact h.leadsTo_mem hc hfits (h.source hs).1 (h.source hs).2
    · rintro ⟨hp, hedge⟩
      rcases h.edge_cases hc hfits hp hedge with ⟨hp, u, hu, heq⟩ | ⟨j, -, -, -, heq⟩
      · rcases d.edge_cases body p u with ⟨-, hto⟩ | ⟨j, hj, -, -, hto⟩
        · exact absurd (heq.trans hto).symm (Nat.ne_of_lt (Nat.lt_add_right i (hsucc hp hu).1))
        · obtain rfl : i = j := Nat.add_left_cancel (heq.trans hto)
          exact Option.some.inj (hj.symm.trans hs)
      · exact absurd heq.symm (Nat.ne_of_lt (Nat.lt_add_right i h.target))

/-! ## Paths -/

theorem path_iff {allowed : Nat → Prop} (hnew : ∀ i, allowed (body.blockCount + i))
    (hb : b < body'.blockCount) :
    body'.graph.Path allowed 0 b ↔ body.graph.Path allowed 0 (d.origin body b) := by
  have hentry : 0 < body.blockCount := Nat.zero_lt_of_lt h.target
  have hedge {b c : BlockId} (hpath : body'.graph.Path allowed 0 b)
      (hmem : c ∈ (body'.block b).successors)
      (hc : c < body'.blockCount) (hok : allowed c) : body'.graph.Path allowed 0 c :=
    hpath.snoc (by rwa [Body.successors_graph]) (by rwa [Body.size_graph]) hok
  have hold : ∀ {b}, body.graph.Path allowed 0 b → body'.graph.Path allowed 0 b := by
    intro b hpath
    induction hpath with
    | refl _ hok => exact .refl (by rw [Body.size_graph]; exact h.lt_old hentry) hok
    | @snoc b c hpath hmem hlt hok ih =>
      have hb : b < body.blockCount := by simpa [Body.size_graph] using hpath.lt_size
      rw [Body.size_graph] at hlt
      rw [Body.successors_graph] at hmem
      have hmem' := h.leadsTo_mem hc hfits hb hmem
      rcases d.edge_cases body b c with ⟨-, hto⟩ | ⟨i, hi, rfl, -, hto⟩
      · exact hedge ih (hto ▸ hmem') (h.lt_old hlt) hok
      · refine hedge (hedge ih (hto ▸ hmem') (h.lt_new hi) (hnew i)) ?_ (h.lt_old hlt) hok
        rw [h.successors_new hi]
        exact List.mem_singleton_self _
  constructor
  · clear hb
    intro hpath
    induction hpath with
    | refl _ hok =>
      rw [Detours.origin_old hentry]
      exact .refl (by rwa [Body.size_graph]) hok
    | @snoc b c hpath hmem hlt hok ih =>
      have hb : b < body'.blockCount := by simpa [Body.size_graph] using hpath.lt_size
      rw [Body.successors_graph] at hmem
      rcases h.edge_cases hc hfits hb hmem with ⟨hb', u, hu, rfl⟩ | ⟨i, s, hs, rfl, rfl⟩
      · rw [Detours.origin_old hb'] at ih
        rcases d.edge_cases body b u with ⟨-, hto⟩ | ⟨i, hi, -, -, hto⟩
        · have hu' := ((hc.block b hb').successors u hu).1
          rw [hto] at hok ⊢
          rw [Detours.origin_old hu']
          exact ih.snoc (by rwa [Body.successors_graph]) (by rwa [Body.size_graph]) hok
        · rwa [hto, Detours.origin_new hi]
      · rw [Detours.origin_new hs] at ih
        rw [Detours.origin_old h.target]
        exact ih.snoc (by rw [Body.successors_graph]; exact (h.source hs).2)
          (by rw [Body.size_graph]; exact h.target) hok
  · intro hpath
    rcases h.cases hb with hb' | ⟨i, s, hs, rfl⟩
    · rw [Detours.origin_old hb'] at hpath
      exact hold hpath
    · rw [Detours.origin_new hs] at hpath
      refine hedge (hold hpath) ?_ hb (hnew i)
      rw [← (Detours.edge_of_getElem? h.nodup hs).2]
      exact h.leadsTo_mem hc hfits (h.source hs).1 (h.source hs).2

theorem reachable (hb : b < body'.blockCount) : body'.graph.Reaches 0 b :=
  (h.path_iff hc hfits (fun _ => trivial) hb).2 (hc.block _ (h.origin_lt hb)).reachable

theorem dominates_iff {a : BlockId} (ha : a < body.blockCount) (hb : b < body'.blockCount) :
    body'.dominators.dominates a b = true ↔
      body.dominators.dominates a (d.origin body b) = true := by
  have hnew : ∀ i, body.blockCount + i ≠ a := fun i => Nat.ne_of_gt (Nat.lt_add_right i ha)
  rw [Body.dominators, Body.dominators, Dominators.dominates_iff (h.reachable hc hfits hb),
    Dominators.dominates_iff (hc.block _ (h.origin_lt hb)).reachable, h.path_iff hc hfits hnew hb]

/-! ## Definitions -/

omit hc in
theorem phiDests_old (hb : b < body.blockCount) :
    (body'.block b).phiDests = (body.block b).phiDests ++ (body.block b).destsBefore
    (d.dropped body b) := by
  rw [h.old b hb, Detours.block, Block.phiDests, List.map_append, Block.phiDests, Detours.dropped]
  congr 1
  cases hphi : d.phi? body b with
  | none => rfl
  | some phi =>
    obtain ⟨rest, hops⟩ := hfits.exists_of_phi? hphi
    simp [Block.destsBefore, hops, Op.dest?]

theorem definedValues_eq :
    body'.definedValues = body.definedValues ++ if d.catching then List.range' body.valueCount
      d.sources.length else [] := by
  have hold : ∀ b ∈ List.range body.blockCount, (body'.block b).definedValues =
      (body.block b).definedValues := by
    intro b hb
    have hb := List.mem_range.1 hb
    rw [Block.definedValues, h.phiDests_old hfits hb, List.append_assoc,
      ← (h.redirected hc hfits hb).opDests]
    rfl
  have hnew : ∀ i ∈ List.range d.sources.length,
      (body'.block (body.blockCount + i)).definedValues = (d.padCaught? body i).toList := by
    intro i hi
    rw [h.new i _ (List.getElem?_eq_getElem (List.mem_range.1 hi))]
    cases d.padCaught? body i <;> rfl
  have hids : body'.blockIds = List.range body.blockCount ++ (List.range d.sources.length).map
      (body.blockCount + ·) := by
    rw [Body.blockIds, ← List.range_add]
    exact congrArg List.range h.blockCount
  rw [Body.definedValues, hids, List.flatMap_append, List.flatMap_congr hold, List.flatMap_map,
    List.flatMap_congr hnew]
  refine congrArg (body.definedValues ++ ·) ?_
  cases hcatching : d.catching with
  | false => simp [Detours.padCaught?, hcatching, List.flatMap_eq_nil_iff]
  | true => simp [Detours.padCaught?, hcatching, List.range'_eq_map_range, List.map_eq_flatMap]

theorem dominated (hb : b < body'.blockCount) (hij : b < body.blockCount → i ≤ d.dropped body b + j)
    (hv : body.Dominated (d.origin body b) i v) : body'.Dominated b j v := by
  obtain ⟨site, hsite, hbefore⟩ := hv
  cases site with
  | phi c =>
    obtain ⟨hc', hphi⟩ := hsite
    refine ⟨.phi c, ⟨h.lt_old hc', ?_⟩, (h.dominates_iff hc hfits hc' hb).2 hbefore⟩
    rw [h.phiDests_old hfits hc']
    exact List.mem_append_left _ hphi
  | op c k =>
    obtain ⟨hc', op, hop, hdest⟩ := hsite
    have hdom : body'.dominators.dominates c b = true := by
      rw [h.dominates_iff hc hfits hc' hb]
      simp only [Body.isDefinedBefore] at hbefore
      split at hbefore
      · rename_i heq
        rw [heq, Body.dominators, Dominators.dominates_iff (hc.block _ (h.origin_lt hb)).reachable]
        exact fun hpath => hpath.target_allowed rfl
      · exact hbefore
    by_cases hk : k < d.dropped body c
    · -- the exception is picked up by the phi
      refine ⟨.phi c, ⟨h.lt_old hc', ?_⟩, hdom⟩
      rw [h.phiDests_old hfits hc']
      exact List.mem_append_right _ (Block.mem_destsBefore.2 ⟨k, op, hk, hop, hdest⟩)
    · refine ⟨.op c (k - d.dropped body c), ⟨h.lt_old hc', op.mapTargets (d.leadsTo body c), ?_,
        by simpa⟩, ?_⟩
      · rw [(h.redirected hc hfits hc').getElem?_ops, Nat.add_sub_cancel' (Nat.le_of_not_lt hk),
          hop]
        rfl
      · simp only [Body.isDefinedBefore]
        by_cases heq : c = b
        · subst heq
          have hle := hij hc'
          simp only [Body.isDefinedBefore, Detours.origin_old hc', if_true,
            decide_eq_true_eq] at hbefore ⊢
          omega
        · rwa [if_neg heq]

/-! ## The check -/

theorem isHandlerEntry_of_ne (hb : b < body.blockCount) (hne : b ≠ d.target) :
    body'.isHandlerEntry b = body.isHandlerEntry b := by
  have hpreds : (body'.block b).preds = (body.block b).preds := by
    rw [h.preds_old hb]
    exact (List.map_congr_left fun p _ => if_neg hne).trans (List.map_id' _)
  rw [Body.isHandlerEntry, Body.isHandlerEntry, hpreds]
  congr 1
  rw [Bool.eq_iff_iff, List.all_eq_true, List.all_eq_true]
  refine forall₂_congr fun p hp => ?_
  obtain ⟨hp, hedge⟩ := (hc.block b hb).preds_edge p hp
  have hexceptional := (h.redirected hc hfits hp).isExceptionalSuccessor hedge
  rw [show d.leadsTo body p b = b from if_neg hne] at hexceptional
  rw [hexceptional]

theorem isExceptionalSuccessor_new (hs : d.sources[i]? = some s) :
    (body'.block s).isExceptionalSuccessor (body.blockCount + i) =
    (body.block s).isExceptionalSuccessor d.target := by
  rw [← (h.redirected hc hfits (h.source hs).1).isExceptionalSuccessor (h.source hs).2,
    (Detours.edge_of_getElem? h.nodup hs).2]

theorem placed_old (hb : b < body.blockCount) (op' : Op)
    (hop' : (body'.block b).ops[i]? = some op') :
    body'.checkPlacement b op' i = .ok () := by
  have hred := h.redirected hc hfits hb
  have hlength := hred.length_ops
  rw [hred.getElem?_ops] at hop'
  obtain ⟨op, hop, rfl⟩ := Option.map_eq_some_iff.1 hop'
  obtain ⟨hend, hargument, hcaught⟩ := Body.checkPlacement_eq_ok.1 ((hc.block b hb).placed _ op hop)
  simp only [Body.checkPlacement_eq_ok, Op.isTerminator_mapTargets, Op.isArgument_mapTargets,
    Op.isMoveException_mapTargets]
  refine ⟨fun hterm => ?_,
    fun harg => ⟨(hargument harg).1, List.all_eq_true.2 fun other hother => ?_⟩, fun hmove => ?_⟩
  · have := hend hterm
    omega
  · rw [hred.ops, ← List.map_take, List.take_drop] at hother
    obtain ⟨o, ho, rfl⟩ := List.mem_map.1 hother
    rw [Op.isArgument_mapTargets]
    exact List.all_eq_true.1 (hargument harg).2 o (List.mem_of_mem_drop ho)
  · obtain ⟨hzero, hentry⟩ := hcaught hmove
    obtain ⟨hdropped, rfl⟩ : d.dropped body b = 0 ∧ i = 0 := by omega
    refine ⟨rfl, ?_⟩
    rw [h.isHandlerEntry_of_ne hc hfits hb ?_]
    · exact hentry
    · rintro rfl
      have hcaught : (caught? (body.block d.target)).isSome = true := by
        rw [hdropped] at hop
        exact isSome_caught? hop hmove
      obtain ⟨dest, hdest⟩ := Option.isSome_iff_exists.1 hcaught
      simp [Detours.dropped, Detours.phi?, hfits.freed.symm.trans hdest] at hdropped

theorem exceptional_of_catching (hcatching : d.catching = true) (hs : d.sources[i]? = some s) :
    (body.block s).isExceptionalSuccessor d.target = true := by
  rw [hfits.catching] at hcatching
  obtain ⟨dest, hfreed⟩ := Option.isSome_iff_exists.1 hcatching
  have hphi : d.phi? body d.target = some ⟨dest, List.range' body.valueCount d.sources.length⟩ := by
    simp [Detours.phi?, hfreed]
  have hentry := hfits.isHandlerEntry hc h.target hphi
  rw [Body.isHandlerEntry, Bool.and_eq_true, List.all_eq_true] at hentry
  exact hentry.2 s ((hc.block s (h.source hs).1).successors _ (h.source hs).2).2

theorem placed_new (hs : d.sources[i]? = some s) {op : Op}
    (hop : (body'.block (body.blockCount + i)).ops[j]? = some op) :
    body'.checkPlacement (body.blockCount + i) op j = .ok () := by
  rw [h.new i s hs] at hop
  refine Body.checkPlacement_eq_ok.2 ?_
  rcases Detours.getElem?_pad hop with ⟨rfl, hlast⟩ | ⟨v, hcaught, rfl, rfl⟩
  · refine ⟨fun _ => ?_, by simp [Op.isArgument], by simp [Op.isMoveException]⟩
    rw [h.new i s hs, hlast]
  · refine ⟨by simp [Op.isTerminator], by simp [Op.isArgument], fun _ => ⟨rfl, ?_⟩⟩
    have hcatching : d.catching = true := by
      unfold Detours.padCaught? at hcaught
      split at hcaught
      · assumption
      · cases hcaught
    rw [Body.isHandlerEntry, h.new i s hs]
    simp only [Detours.pad, List.isEmpty_cons, Bool.not_false, Bool.true_and, List.all_cons,
      List.all_nil, Bool.and_true]
    rw [h.isExceptionalSuccessor_new hc hfits hs, h.exceptional_of_catching hc hfits hcatching hs]

theorem arity_old (hb : b < body.blockCount) (phi : Phi) (hphi : phi ∈ (body'.block b).phis) :
    phi.operands.length = (body'.block b).preds.length := by
  rw [h.preds_old hb, List.length_map]
  rw [h.old b hb, Detours.block, List.mem_append, Option.mem_toList] at hphi
  rcases hphi with hphi | hphi
  · exact (hc.block b hb).arity phi hphi
  · obtain ⟨dest, hfreed, rfl, rfl⟩ := Detours.exists_of_phi? hphi
    rw [List.length_range', hfits.all (by simp [hfreed])]

theorem checkedBlock (hb : b < body'.blockCount) : body'.CheckedBlock b := by
  constructor
  case reachable => exact h.reachable hc hfits hb
  case terminator =>
    rcases h.cases hb with hb | ⟨i, s, hs, rfl⟩
    · rw [(h.redirected hc hfits hb).terminator?, Option.isSome_map]
      exact (hc.block b hb).terminator
    · rw [h.new i s hs]
      cases d.padCaught? body i <;> rfl
  case placed =>
    rcases h.cases hb with hb | ⟨i, s, hs, rfl⟩
    · exact fun i op hop => h.placed_old hc hfits hb op hop
    · exact fun j op hop => h.placed_new hc hfits hs hop
  case throws_at_end =>
    rcases h.cases hb with hb | ⟨i, s, hs, rfl⟩
    · exact (h.redirected hc hfits hb).throwsAtEnd ▸ (hc.block b hb).throws_at_end
    · rw [h.new i s hs]
      rfl
  case preds_nodup => exact h.preds_nodup hc hb
  case preds_edge => exact fun p hp => (h.mem_preds hc hfits hb).1 hp
  case successors =>
    intro t ht
    have hlt : t < body'.blockCount := by
      rcases h.edge_cases hc hfits hb ht with ⟨hb, u, hu, rfl⟩ | ⟨-, -, -, -, rfl⟩
      · rcases d.edge_cases body b u with ⟨-, hto⟩ | ⟨i, hi, -, -, hto⟩
        · rw [hto]
          exact h.lt_old ((hc.block b hb).successors u hu).1
        · rw [hto]
          exact h.lt_new hi
      · exact h.lt_old h.target
    exact ⟨hlt, (h.mem_preds hc hfits hlt).2 ⟨hb, ht⟩⟩
  case arity =>
    rcases h.cases hb with hb | ⟨i, s, hs, rfl⟩
    · exact h.arity_old hc hfits hb
    · rw [h.new i s hs]
      exact fun phi hphi => absurd hphi List.not_mem_nil

theorem checked : body'.Checked where
  entry_preds := by rw [h.preds_old (Nat.zero_lt_of_lt h.target), hc.entry_preds, List.map_nil]
  block := fun b hb => h.checkedBlock hc hfits hb
  defined_nodup := by
    rw [h.definedValues_eq hc hfits]
    split
    · refine List.nodup_append.2 ⟨hc.defined_nodup, List.nodup_range', fun v hv w hw heq => ?_⟩
      exact absurd (heq ▸ hc.defined_lt v hv) (Nat.not_lt_of_le (List.mem_range'_1.1 hw).1)
    · rw [List.append_nil]
      exact hc.defined_nodup
  defined_lt := by
    intro v hv
    rw [h.definedValues_eq hc hfits, List.mem_append] at hv
    rw [h.valueCount]
    rcases hv with hv | hv
    · exact Nat.lt_add_right _ (hc.defined_lt v hv)
    · split at hv
      · rename_i hcatching
        rw [if_pos hcatching]
        exact (List.mem_range'_1.1 hv).2
      · cases hv
  phi := by
    intro b hb phi hphi e he
    rcases h.cases hb with hb' | ⟨i, s, hs, rfl⟩
    · have hpred := (List.of_mem_zip he).2
      rw [h.old b hb', Detours.block, List.mem_append, Option.mem_toList] at hphi
      rw [h.preds_old hb'] at he
      rcases hphi with hphi | hphi
      · rw [List.zip_map_right] at he
        obtain ⟨⟨v, p⟩, hvp, rfl⟩ := List.mem_map.1 he
        obtain ⟨hp, hedge⟩ := (hc.block b hb').preds_edge p (List.of_mem_zip hvp).2
        have hdom := hc.phi b hb' phi hphi (v, p) hvp
        refine h.dominated hc hfits ((h.mem_preds hc hfits hb).1 hpred).1 (fun hlt => ?_)
          (by rw [Prod.map_snd, Detours.origin_comesFrom hp]; exact hdom)
        -- the edge is as it was
        rcases d.edge_cases body p b with ⟨hfrom, hto⟩ | ⟨i, -, -, hfrom, -⟩
        · have hexit := Body.exitPosition_redirected (h.redirected hc hfits hp) hedge
          rw [hto] at hexit
          simp only [Prod.map_snd, hfrom]
          exact hexit.ge
        · rw [Prod.map_snd, hfrom] at hlt
          exact absurd hlt (Nat.not_lt_of_le (Nat.le_add_right _ i))
      · obtain ⟨dest, hfreed, rfl, rfl⟩ := Detours.exists_of_phi? hphi
        obtain ⟨i, hi⟩ := List.mem_iff_getElem?.1 he
        obtain ⟨hv, hp⟩ := List.getElem?_zip_eq_some.1 hi
        rw [← hfits.all (by simp [hfreed]), List.getElem?_map] at hp
        obtain ⟨s, hs, hfrom⟩ := Option.map_eq_some_iff.1 hp
        obtain ⟨_, hvalue⟩ := List.getElem?_eq_some_iff.1 hv
        rw [(Detours.edge_of_getElem? h.nodup hs).1] at hfrom
        rw [List.getElem_range', Nat.one_mul] at hvalue
        rw [← hfrom, ← hvalue]
        exact h.dominated_caught (by simp [hfits.catching, hfreed]) hs
    · rw [h.new i s hs] at hphi
      cases hphi
  use := by
    intro b hb i op hop v hv
    rcases h.cases hb with hb' | ⟨k, s, hs, rfl⟩
    · rw [(h.redirected hc hfits hb').getElem?_ops] at hop
      obtain ⟨o, ho, rfl⟩ := Option.map_eq_some_iff.1 hop
      rw [Op.uses_mapTargets] at hv
      refine h.dominated hc hfits hb (fun _ => Nat.le_refl _) ?_
      rw [Detours.origin_old hb']
      exact hc.use b hb' _ o ho v hv
    · rw [h.new k s hs] at hop
      rcases Detours.getElem?_pad hop with ⟨rfl, _⟩ | ⟨_, _, _, rfl⟩ <;> cases hv

theorem unmixed (hu : body.Unmixed) : body'.Unmixed := by
  intro b hb t ht hnormal
  rcases h.cases hb with hb | ⟨i, s, hs, rfl⟩
  · have hred := h.redirected hc hfits hb
    rw [hred.handlerTargets] at ht
    rw [hred.normalSuccessors] at hnormal
    obtain ⟨u, hu', rfl⟩ := List.mem_map.1 ht
    obtain ⟨w, hw, heq⟩ := List.mem_map.1 hnormal
    obtain rfl := hred.apart w (List.mem_append_left _ hw) u (List.mem_append_right _ hu') heq
    exact hu b hb w hu' hw
  · rw [h.new i s hs] at ht
    cases ht

end Detoured

end BytecodeOpt.Allocation
