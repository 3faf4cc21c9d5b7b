import BytecodeOpt.Proofs.Pass.DeadCode.Phis

/-!
# Values that are needed

The search from what the roots read finds the values that are needed: a value is needed if a root
reads it or the definition of another needed value does.  Dropping the rest leaves a body that
passes the check, and a run sees the same of it as long as nothing that was dropped raises an
exception.
-/

namespace BytecodeOpt

open Execution

namespace Pass.DeadCode

open Ssa Ssa.Body

variable {body : Body} {b c : BlockId} {v d : Operand} {i k : Nat} {op : Op} {phi : Phi}

/-! ## The search -/

def marked (body : Body) (v : Operand) : Bool := (live body).getD v false

inductive Needed (body : Body) : Operand → Prop where
  | root {b : BlockId} {op : Op} {v : Operand} : op ∈ (body.block b).ops → isRoot op = true →
      v ∈ op.uses → Needed body v
  | phi {b : BlockId} {phi : Phi} {v : Operand} : phi ∈ (body.block b).phis → Needed body phi.dest →
      v ∈ phi.operands →
      Needed body v
  | op {b : BlockId} {op : Op} {d v : Operand} : op ∈ (body.block b).ops → op.dest? = some d →
      Needed body d →
      v ∈ op.uses → Needed body v

section

variable (h : body.Checked)
include h

theorem mem_reads : v ∈ reads body body.definitions d ↔
    (∃ b, ∃ phi ∈ (body.block b).phis, phi.dest = d ∧ v ∈ phi.operands) ∨
      ∃ b, ∃ op ∈ (body.block b).ops, op.dest? = some d ∧ v ∈ op.uses := by
  have hphis : ∀ {b phi}, phi ∈ (body.block b).phis → phi.dest = d →
      (body.block b).phis.find? (·.dest = d) = some phi ∧ body.DefinedAt d (.phi b) := by
    intro b phi hphi hdest
    have hb := lt_blockCount_of_mem_phis hphi
    refine ⟨?_, hb, hdest ▸ List.mem_map_of_mem hphi⟩
    cases hfind : (body.block b).phis.find? (·.dest = d) with
    | none => simpa [hdest] using List.find?_eq_none.1 hfind phi hphi
    | some other =>
      have hnodup := h.sound.phis_nodup b (h.block b hb).reachable
      rw [List.inj_on_of_nodup_map hnodup (List.mem_of_find?_eq_some hfind) hphi
        (by simpa [hdest] using List.find?_some hfind)]
  unfold reads
  constructor
  · intro hv
    split at hv
    next b hsite =>
      cases hfind : (body.block b).phis.find? (·.dest = d) with
      | none => simp [hfind] at hv
      | some phi => grind
    next b i hsite =>
      obtain ⟨-, op, hop, hdest⟩ := h.getD_definitions.1 hsite
      exact .inr ⟨b, op, List.mem_of_getElem? hop, hdest, by simpa [hop] using hv⟩
    next => simp at hv
  · rintro (⟨b, phi, hphi, hdest, hv⟩ | ⟨b, op, hop, hdest, hv⟩)
    · obtain ⟨hfind, hsite⟩ := hphis hphi hdest
      rw [h.getD_definitions.2 hsite]
      simpa [hfind] using hv
    · obtain ⟨i, hi⟩ := List.mem_iff_getElem?.1 hop
      have hsite : body.DefinedAt d (.op b i) := ⟨lt_blockCount_of_getElem? hi, op, hi, hdest⟩
      rw [h.getD_definitions.2 hsite]
      simpa [hi] using hv

theorem needed_of_reads (hd : Needed body d) (hv : v ∈ reads body body.definitions d) :
    Needed body v := by
  rcases (mem_reads h).1 hv with ⟨b, phi, hphi, rfl, hmem⟩ | ⟨b, op, hop, hdest, hmem⟩
  · exact .phi hphi hd hmem
  · exact .op hop hdest hd hmem

/-- The search marks exactly what is needed. -/
theorem marked_iff : marked body v = true ↔ Needed body v := by
  have hlt : ∀ {v}, Needed body v → v < body.valueCount := fun hv => by
    cases hv with
    | root hop _ hv => exact lt_valueCount_of_uses h hop hv
    | phi hphi _ hv => exact lt_valueCount_of_operands h hphi hv
    | op hop _ _ hv => exact lt_valueCount_of_uses h hop hv
  let g : Digraph := ⟨(Array.range body.valueCount).map (reads body body.definitions)⟩
  let roots := (body.ops.filter fun e => isRoot e.2).flatMap fun e => e.2.uses
  have hsize : g.size = body.valueCount := by simp [g, Digraph.size]
  have hsuccessors : ∀ d < body.valueCount, g.successors d = reads body body.definitions d :=
    fun d hd => by
    simp [g, Digraph.successors, hd]
  have hroots : ∀ {v}, v ∈ roots ↔ ∃ b, ∃ op ∈ (body.block b).ops, isRoot op = true ∧
      v ∈ op.uses := by
    intro v
    simp only [roots, List.mem_flatMap, List.mem_filter, Prod.exists, mem_ops]
    constructor
    · grind
    · rintro ⟨b, op, hop, hroot, hv⟩
      exact ⟨b, op, ⟨⟨lt_blockCount_of_mem_ops hop, hop⟩, hroot⟩, hv⟩
  refine Iff.trans (Digraph.getD_entered_foldl (g := g) roots) ⟨?_, ?_⟩
  · rintro ⟨r, hr, hpath⟩
    induction hpath with
    | refl =>
      obtain ⟨b, op, hop, hroot, hv⟩ := hroots.1 hr
      exact .root hop hroot hv
    | snoc _ hedge _ _ ih =>
      rw [hsuccessors _ (hlt ih)] at hedge
      exact needed_of_reads h ih hedge
  · intro hv
    have hextend : ∀ {d v}, (∃ r ∈ roots, g.Reaches r d) → Needed body d → Needed body v →
        v ∈ reads body body.definitions d → ∃ r ∈ roots, g.Reaches r v := by
      rintro d v ⟨r, hr, hpath⟩ hd hv hedge
      exact ⟨r, hr, hpath.snoc (by rwa [hsuccessors d (hlt hd)]) (hsize ▸ hlt hv) trivial⟩
    induction hv with
    | root hop hroot hv =>
      exact ⟨_, hroots.2 ⟨_, _, hop, hroot, hv⟩,
        .refl (hsize ▸ lt_valueCount_of_uses h hop hv) trivial⟩
    | phi hphi hd hv ih =>
      exact hextend ih hd (.phi hphi hd hv) ((mem_reads h).2 (.inl ⟨_, _, hphi, rfl, hv⟩))
    | op hop hdest hd hv ih =>
      exact hextend ih hd (.op hop hdest hd hv) ((mem_reads h).2 (.inr ⟨_, _, hop, hdest, hv⟩))

end

/-! ## What stays -/

theorem isRoot_of_isTerminator (h : op.isTerminator = true) : isRoot op = true := by
  cases op <;> simp_all [isRoot, Op.hasSideEffects, Op.isTerminator]

/-- What stands in for an operation after the sweep, if it stays. -/
def swept? (isLive : Operand → Bool) (op : Op) : Option Op :=
  if isKept isLive op then some (dropDeadResult isLive op) else none

variable {isLive : Operand → Bool}

theorem swept?_eq_some {op' : Op} :
    swept? isLive op = some op' ↔ isKept isLive op = true ∧ dropDeadResult isLive op = op' := by
  simp [swept?]

theorem ops_sweepBlock (b : Block) :
    (sweepBlock isLive b).ops = b.ops.filterMap (swept? isLive) := by
  have hswept : swept? isLive = fun op =>
      (Option.guard (isKept isLive) op).map (dropDeadResult isLive) := by
    funext op
    by_cases h : isKept isLive op <;> simp [swept?, Option.guard, h]
  rw [hswept, ← List.map_filterMap, List.filterMap_eq_filter]
  rfl

theorem isKept_iff :
    isKept isLive op = true ↔ isRoot op = true ∨ ∃ d, op.dest? = some d ∧ isLive d = true := by
  simp [isKept, Option.any_eq_true]

@[simp] theorem uses_dropDeadResult : (dropDeadResult isLive op).uses = op.uses := by
  cases op <;> rfl

theorem dest?_dropDeadResult (h : (dropDeadResult isLive op).dest? = some d) :
    op.dest? = some d := by
  cases op with
  | invoke kind method args dest => exact (Option.filter_eq_some_iff.1 h).1
  | invokeCustom site args dest => exact (Option.filter_eq_some_iff.1 h).1
  | _ => exact h

theorem dest?_dropDeadResult_of_live (h : op.dest? = some d) (hd : isLive d = true) :
    (dropDeadResult isLive op).dest? = some d := by
  cases op with
  | invoke kind method args dest => exact Option.filter_eq_some_iff.2 ⟨h, hd⟩
  | invokeCustom site args dest => exact Option.filter_eq_some_iff.2 ⟨h, hd⟩
  | _ => exact h

theorem standsFor_dropDeadResult : (dropDeadResult isLive op).StandsFor op := by
  refine ⟨?_, ?_, ?_, ?_, fun _ => dest?_dropDeadResult⟩ <;> cases op <;> simp [dropDeadResult,
    Op.isTerminator,
    Op.isArgument, Op.isMoveException, Op.canThrow]

theorem targets_dropDeadResult : (dropDeadResult isLive op).targets = op.targets := by
  cases op <;> rfl

def swept (body : Body) : Body := body.mapBlocks (sweepBlock (marked body))

theorem block_swept (body : Body) (b : BlockId) :
    (swept body).block b = sweepBlock (marked body) (body.block b) :=
  block_mapBlocks body b rfl

section

variable (h : body.Checked)
include h

theorem pared_swept : Pared body (swept body) (fun _ => swept? (marked body)) ∧
    (swept body).graph = body.graph := by
  have hops : ∀ c, ((swept body).block c).ops = (body.block c).ops.filterMap
      (swept? (marked body)) :=
    fun c => by rw [block_swept, ops_sweepBlock]
  have hstays : ∀ op : Op, op.isTerminator = true → swept? (marked body) op =
      some (dropDeadResult (marked body) op) := fun op hterm =>
    swept?_eq_some.2 ⟨isKept_iff.2 (.inl (isRoot_of_isTerminator hterm)), rfl⟩
  refine pared_of_edges h.sound.block (by simp [swept]) rfl hops (fun c => by rw [block_swept]; rfl)
    (fun c => by rw [block_swept]; rfl)
    (fun c => ?_) (fun c phi hphi => ?_) (fun c op _ op' hop' => ?_)
    (fun c op _ hterm => Option.isSome_iff_exists.2 ⟨_, hstays op hterm⟩) fun c => ?_
  · rw [block_swept]
    exact List.filter_sublist.map _
  · rw [block_swept] at hphi
    exact ⟨phi, List.mem_of_mem_filter hphi, rfl⟩
  · obtain ⟨-, rfl⟩ := swept?_eq_some.1 hop'
    exact standsFor_dropDeadResult
  · by_cases hc : c < body.blockCount
    · refine (h.block c hc).terminated.normalSuccessors_filterMap (hops c) fun op _ hterm =>
        ⟨_, hstays op hterm, ?_, ?_⟩
      · rwa [standsFor_dropDeadResult.isTerminator]
      · exact targets_dropDeadResult
    · rw [block_swept, block_of_le (Nat.le_of_not_lt hc)]
      simp [sweepBlock, Block.normalSuccessors, Block.terminator?]

theorem mem_phis_swept :
    phi ∈ ((swept body).block b).phis ↔ phi ∈ (body.block b).phis ∧ Needed body phi.dest := by
  rw [block_swept]
  simp only [sweepBlock, List.mem_filter, marked_iff h]

theorem needed_of_kept (hop : op ∈ (body.block b).ops) (hkept : isKept (marked body) op = true)
    (hv : v ∈ op.uses) : Needed body v := by
  rcases isKept_iff.1 hkept with hroot | ⟨d, hdest, hd⟩
  · exact .root hop hroot hv
  · exact .op hop hdest ((marked_iff h).1 hd) hv

theorem checked_swept : (swept body).Checked := by
  obtain ⟨hpared, hgraph⟩ := pared_swept h
  have hkeeps : ∀ v, Needed body v → hpared.Keeps v := fun v hv => by
    refine ⟨fun c hphi => ?_, fun c op hop hdest => ?_⟩
    · obtain ⟨phi, hmem, rfl⟩ := List.mem_map.1 hphi
      exact List.mem_map_of_mem ((mem_phis_swept h).2 ⟨hmem, hv⟩)
    · have hlive := (marked_iff h).2 hv
      exact ⟨_, swept?_eq_some.2 ⟨isKept_iff.2 (.inr ⟨v, hdest, hlive⟩), rfl⟩,
        dest?_dropDeadResult_of_live hdest hlive⟩
  have hsound : (swept body).Sound := by
    refine hpared.sound h.sound (fun c hc phi hphi e he hpred => ?_) fun c hc k op op' hop
      hop' v hv => ?_
    · obtain ⟨hphi', hneeded⟩ := (mem_phis_swept h).1 hphi
      have hpreds : ((swept body).block c).preds = (body.block c).preds := by rw [block_swept]; rfl
      rw [hpreds] at he
      refine hpared.dominated hpred (h.sound.phi c (hpared.reached hc) phi hphi' e he
        (hpared.reached hpred))
        (hkeeps e.1 (.phi hphi' hneeded (List.of_mem_zip he).1))
          (hpared.place_exitPosition_le h.sound hpred c)
    · obtain ⟨hkept, rfl⟩ := swept?_eq_some.1 hop'
      rw [uses_dropDeadResult] at hv
      exact hpared.dominated hc (h.sound.use c (hpared.reached hc) k op hop v hv)
        (hkeeps v (needed_of_kept h (List.mem_of_getElem? hop) hkept hv)) (Nat.le_refl _)
  refine hsound.checked fun c hc => ?_
  rw [Reached, hgraph]
  exact (h.block c (hpared.count ▸ hc)).reachable

end

end Pass.DeadCode

namespace Execution

variable {V W : Type} {host : Host V W} {args : Nat → V}

/-- Worlds that differ only by what operations without side effects leave behind. -/
structure Host.Overlooks (host : Host V W) (R : W → W → Prop) : Prop where
  idle : ∀ {op : Op} {args : Nat → V} {w w' u : W} {m : Memory V} {seen : List (Observation V)}
    {value : Option V},
    op.hasSideEffects = false → op.effect.Runs host args w m seen w' (.next value) → R w u → R w' u
  performs : ∀ {w w' u : W} {action : Action} {values : List V} {outcome : Outcome V},
    host.performs w action values outcome w' → R w u →
      ∃ u', host.performs u action values outcome u' ∧ R w' u'

theorem Host.Overlooks.runs {R : W → W → Prop} (h : host.Overlooks R) {e : Effect} {w w' u : W}
    {m : Memory V}
    {seen : List (Observation V)} {exit : Exit V} (hrun : e.Runs host args w m seen w' exit)
    (hworld : R w u) :
    ∃ u', e.Runs host args u m seen u' exit ∧ R w' u' := by
  cases hrun with
  | completes hne hperforms =>
    obtain ⟨u', hperforms', hworld'⟩ := h.performs hperforms hworld
    exact ⟨u', .completes hne hperforms', hworld'⟩
  | raises hthrow hperforms =>
    obtain ⟨u', hperforms', hworld'⟩ := h.performs hperforms hworld
    exact ⟨u', .raises hthrow hperforms', hworld'⟩
  | skip => exact ⟨u, .skip, hworld⟩
  | line => exact ⟨u, .line, hworld⟩
  | argument => exact ⟨u, .argument, hworld⟩
  | copy => exact ⟨u, .copy, hworld⟩
  | result => exact ⟨u, .result, hworld⟩
  | caught => exact ⟨u, .caught, hworld⟩
  | goto => exact ⟨u, .goto, hworld⟩
  | branch htaken => exact ⟨u, .branch htaken, hworld⟩
  | switch hkey => exact ⟨u, .switch hkey, hworld⟩
  | ret => exact ⟨u, .ret, hworld⟩

end Execution

namespace Pass.DeadCode

open Ssa Ssa.Body

variable {V W : Type} {host : Host V W} {args : Nat → V} {w u : W} {m m' : Memory V}
  {R : W → W → Prop}
  {body : Body} {b c t : BlockId} {v : Operand} {k : Nat} {op : Op} {isLive : Operand → Bool}

theorem corresponds_dropDeadResult :
    op.effect.Corresponds Eq Eq (dropDeadResult isLive op).effect := by
  cases op with
  | invoke kind method args dest | invokeCustom site args dest =>
    exact .act (List.forall₂_same.2 fun _ _ => rfl)
  | _ => exact Op.corresponds_self _

/-- What is needed holds the same in both. -/
structure Agreeing (body : Body) (m m' : Memory V) : Prop where
  caught : m.caught = m'.caught
  store : ∀ v, Needed body v → m.store v = m'.store v

namespace Agreeing

variable (hagree : Agreeing body m m') (h : body.Checked)
include hagree h

theorem next (op : Op) (x : Option V) :
    Agreeing body (m.after op.effect x) (m'.after (dropDeadResult (marked body) op).effect x) := by
  refine ⟨by simpa using hagree.caught, fun v hv => ?_⟩
  have hdest : (dropDeadResult (marked body) op).effect.dest? = some v ↔
      op.effect.dest? = some v := by
    rw [Op.dest?_effect, Op.dest?_effect]
    exact ⟨dest?_dropDeadResult, fun hd => dest?_dropDeadResult_of_live hd ((marked_iff h).2 hv)⟩
  by_cases hd : op.effect.dest? = some v
  · cases x with
    | none => exact hagree.store v hv
    | some x => rw [m.store_after_self hd, m'.store_after_self (hdest.2 hd)]
  · rw [m.store_after_of_ne hd, m'.store_after_of_ne (mt hdest.1 hd), hagree.store v hv]

theorem gone (hkept : isKept (marked body) op = false) (x : Option V) :
    Agreeing body (m.after op.effect x) m' := by
  refine ⟨by simpa using hagree.caught, fun v hv => ?_⟩
  rw [m.store_after_of_ne fun hd => ?_, hagree.store v hv]
  rw [Op.dest?_effect] at hd
  rw [isKept_iff.2 (.inr ⟨v, hd, (marked_iff h).2 hv⟩)] at hkept
  cases hkept

theorem enter (c t : BlockId) :
    Agreeing body { m with store := fun v => m.store (body.picks c t v) }
    { m' with store := fun v => m'.store ((swept body).picks c t v) } := by
  refine ⟨hagree.caught, fun v hv => ?_⟩
  have hfind : ((swept body).block t).phis.find? (·.dest == v) = (body.block t).phis.find?
      (·.dest == v) := by
    rw [block_swept]
    simp only [sweepBlock, List.find?_filter]
    congr 1
    funext phi
    by_cases hdest : phi.dest = v
    · simp [hdest, (marked_iff h).2 hv]
    · simp [hdest]
  have hpicks : (swept body).picks c t v = body.picks c t v := by
    simp only [picks, hfind]
    rw [block_swept]
    rfl
  have hneeded : Needed body (body.picks c t v) := by
    unfold picks
    split
    next phi hphi =>
      cases ho : (body.block t).incoming? c phi with
      | none => exact hv
      | some o =>
        have hdest : phi.dest = v := by simpa using List.find?_some hphi
        exact .phi (List.mem_of_find?_eq_some hphi) (hdest ▸ hv)
          (List.of_mem_zip (Block.mem_zip_of_incoming? ho)).1
    next => exact hv
  simp only [hpicks]
  exact hagree.store _ hneeded

end Agreeing

/-- The second run is in the same block, where what was dropped is missing. -/
def Abreast (body : Body) (R : W → W → Prop) (n : Nat)
    (a a' : Option (Config (BlockId × Nat) V W)) : Prop :=
  (a = none ∧ a' = none) ∨ ∃ c k w u m m', R w u ∧ Agreeing body m m' ∧
    n = (body.block c).ops.length - k ∧
    a = some ⟨(c, k), w, m⟩ ∧
    a' = some ⟨(c, keptBefore (swept? (marked body)) (body.block c).ops k), u, m'⟩

/-- An operation that stays does the same in both. -/
theorem matched_kept (h : body.Checked) (hoverlooks : host.Overlooks R)
    (hop : (body.block c).ops[k]? = some op)
    (hkept : isKept (marked body) op = true) (hworld : R w u) (hagree : Agreeing body m m') :
    Matched (body.routine.Step host args) ((swept body).routine.Step host args) (Abreast body R)
      (some ⟨(c, k), w, m⟩)
      (some ⟨(c, keptBefore (swept? (marked body)) (body.block c).ops k), u, m'⟩) := by
  obtain ⟨hpared, -⟩ := pared_swept h
  have hstands : swept? (marked body) op = some (dropDeadResult (marked body) op) :=
    swept?_eq_some.2 ⟨hkept, rfl⟩
  have hop' := hpared.getElem?_place hop hstands
  have he := effect?_routine hop
  have he' : (swept body).routine.effect? (c, hpared.place c k) =
      some (dropDeadResult (marked body) op).effect := by
    simp [routine, hop']
  have hcorr : op.effect.Corresponds Eq Eq (dropDeadResult (marked body) op).effect :=
    corresponds_dropDeadResult
  have hstore : ∀ v v', v ∈ op.effect.operands ∧ v = v' → m.store v = m'.store v' := by
    rintro v _ ⟨hv, rfl⟩
    rw [Op.operands_effect] at hv
    exact hagree.store v (needed_of_kept h (List.mem_of_getElem? hop) hkept hv)
  rw [← (body.routine.Step host args).viewing_some,
    ← ((swept body).routine.Step host args).viewing_some]
  refine matched_of_runs he he' ⟨0, .inl ⟨rfl, rfl⟩⟩ fun seen w' exit hrun => ?_
  obtain ⟨u', hrun', hworld'⟩ := hoverlooks.runs hrun hworld
  obtain ⟨exit', hrun'', hagrees⟩ := hcorr.restrict.runs hstore hagree.caught hrun'
  refine ⟨seen, u', exit', hrun'', rfl, ?_⟩
  cases hagrees with
  | next =>
    refine .next (n := _) (.inr ⟨c, k + 1, w', u', _, _, hworld', hagree.next h op _, rfl, rfl, ?_⟩)
    rw [keptBefore_succ hop, hstands]
    rfl
  | jump ht =>
    obtain ⟨-, rfl⟩ := ht
    exact .jump (n := _) (.inr ⟨_, 0, w', u', _, _, hworld', hagree.enter h c _, rfl, rfl, rfl⟩)
  | raise =>
    have hcaught : ∀ x : V, Agreeing body { m with caught := x } { m' with caught := x } :=
      fun x => ⟨rfl, hagree.store⟩
    have hhandlers : ∀ i, (swept body).routine.handlers (c, i) = (body.block c).handlers :=
      fun _ => hpared.handlers c
    refine .raise ?_
    rw [hhandlers]
    exact List.forall₂_same.2 fun handler _ =>
      ⟨rfl, _, .inr ⟨handler.target, 0, w', u', _, _, hworld',
      (hcaught _).enter h c _, rfl, rfl, rfl⟩⟩
  | halt => exact .halt

theorem simulates_swept (h : body.Checked) (hoverlooks : host.Overlooks R) {P : Op → Prop}
    (hP : ∀ b, ∀ op ∈ (body.block b).ops, P op ↔ isKept (marked body) op = false) :
    Simulates (body.routine.Sparing (At body P) host args) ((swept body).routine.Step host args)
      (Abreast body R) := by
  rintro n a a' (⟨rfl, rfl⟩ | ⟨c, k, w, u, m, m', hworld, hagree, rfl, rfl, rfl⟩) seen x hstep
  · cases hstep
  cases hstep with
  | seen hnot hstep =>
    obtain ⟨e, he⟩ := hstep.exists_effect
    obtain ⟨op, hop, -⟩ := Option.map_eq_some_iff.1 he
    have hkept : isKept (marked body) op = true := by
      rw [← Bool.not_eq_false]
      exact fun hfalse => hnot ⟨op, hop, (hP c op (List.mem_of_getElem? hop)).2 hfalse⟩
    exact .inr (.inr (matched_kept h hoverlooks hop hkept hworld hagree seen x hstep))
  | spared hl he hrun =>
    obtain ⟨op, hop, hgone⟩ := hl
    change (body.block c).ops[k]? = some op at hop
    simp only [routine, hop, Option.map_some, Option.some.injEq] at he
    subst he
    have hkept := (hP c op (List.mem_of_getElem? hop)).1 hgone
    have hlt := (List.getElem?_eq_some_iff.1 hop).1
    have hroot : op.hasSideEffects = false := by
      rw [← Bool.not_eq_true]
      intro htrue
      rw [isKept_iff.2 (.inl htrue)] at hkept
      cases hkept
    refine .inl ⟨rfl, (body.block c).ops.length - (k + 1), by omega, .inr ⟨c, k + 1, _, u, _, m',
      hoverlooks.idle hroot hrun hworld, hagree.gone h hkept _, rfl, rfl, ?_⟩⟩
    rw [keptBefore_succ hop]
    simp [swept?, hkept]

end Pass.DeadCode

end BytecodeOpt
