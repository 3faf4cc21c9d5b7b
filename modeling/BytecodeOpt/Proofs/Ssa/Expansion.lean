import BytecodeOpt.Proofs.Execution.Mirror
import BytecodeOpt.Proofs.Ssa.Execution
import BytecodeOpt.Proofs.Ssa.Splice

/-!
# A call and the operations that stand for it

Of two bodies that differ in one place, one calls code there and the other has operations that
mirror the code.  Both behave alike: elsewhere they do the same with values of which only the result
of the call has another name.
-/

namespace BytecodeOpt

namespace Execution

variable {K V : Type}

theorem Callee.checked_map {U : Type} (callee : Callee K) (f : U → V) (values : List U) :
    callee.checked (values.map f) = (callee.checked values).map f := by
  rw [checked, checked]
  split
  · rw [List.map_take]
  · rfl

def Callee.guards (callee : Callee K) (given : List Operand) : List Op :=
  (callee.checked given).map .nullCheck

theorem Callee.guards_cases (callee : Callee K) (given : List Operand) :
    (callee.checked given = [] ∧ callee.guards given = []) ∨
      ∃ v ∈ given, callee.checked given = [v] ∧ callee.guards given = [.nullCheck v] := by
  rw [guards, checked]
  split
  · cases given with
    | nil => exact .inl ⟨rfl, rfl⟩
    | cons v rest => exact .inr ⟨v, List.mem_cons_self, rfl, rfl⟩
  · exact .inl ⟨rfl, rfl⟩

theorem not_callStep_of_no_effect {L W : Type} {p : Routine L} {calls : L → Option (Callee K)}
    {host : Host V W}
    {args : Nat → V} {blank : V} {l : L} {w : W} {m : Memory V} {seen : List (Observation V)}
    {a : Option (Activity L K V W)} (hnone : p.effect? l = none) :
    ¬ p.CallStep calls host args blank (some (.caller ⟨l, w, m⟩)) seen a := by
  intro h
  obtain ⟨e, he⟩ : ∃ e, p.effect? l = some e := by
    cases h with
    | own _ hstep => exact hstep.exists_effect
    | call _ he _ => exact ⟨_, he⟩
    | refused _ he _ _ => exact ⟨_, he⟩
  cases hnone.symm.trans he

end Execution

namespace Ssa

open Execution

namespace Body

variable {V W K : Type} {body : Body}

/-- The call of a body runs the code of a callee, and another body has operations in its place that
mirror the code. -/
structure Expands (body body' : Body) (r : Operand → Operand) (b : BlockId)
    (pre : List Op) (call : Op)
    (ops post : List Op) (callee : Callee K) (returned : Option Operand) (quiet : Prop) : Prop where
  spliced : Spliced body body' r b pre [call] (callee.guards call.uses ++ ops) post
  no_handlers : (body.block b).handlers = []
  checked : body.Checked
  new : ∀ v ∈ dests ops, call.dest? = some v ∨ v ∉ body.definedValues
  keeps : ∀ v, call.dest? ≠ some v → r v = v
  result : ∀ d, call.dest? = some d → returned = some (r d) ∧
    (r d ∈ dests ops ∨ body.Dominated b pre.length (r d))
  mirrors : ∃ n, Mirrors callee.routine call.uses returned quiet n callee.entry
    (.ofArguments call.uses) ops

structure Agree (body : Body) (r : Operand → Operand) (call : Op) (ops : List Op)
    (c : BlockId) (k : Nat) (m m' : Memory V) : Prop where
  caught : m.caught = m'.caught
  store : ∀ v, v ∉ dests ops → call.dest? ≠ some v → m.store v = m'.store v
  result : ∀ d, call.dest? = some d → body.Dominated c k d → m.store d = m'.store (r d)

namespace Expands

variable {body body' : Body} {r : Operand → Operand} {b c t : BlockId} {pre ops post : List Op}
  {call op : Op} {callee : Callee K} {returned : Option Operand} {quiet : Prop} {k : Nat}
  {m m' : Memory V} {d v : Operand}

section Values

variable (h : Expands body body' r b pre call ops post callee returned quiet)
include h

theorem call_at : (body.block b).ops[pre.length]? = some call := by
  rw [h.spliced.ops]
  simp

theorem definedAt_result (hd : call.dest? = some d) : body.DefinedAt d (.op b pre.length) :=
  ⟨h.spliced.inside, call, h.call_at, hd⟩

theorem result_before (hd : call.dest? = some d) (hdom : body.Dominated c k d) :
    isDefinedBefore body.dominators c k (.op b pre.length) = true := by
  obtain ⟨site, hsite, hbefore⟩ := hdom
  rwa [h.checked.site_unique hsite (h.definedAt_result hd)] at hbefore

theorem not_dominated_at_call (hd : call.dest? = some d) : ¬ body.Dominated b pre.length d := by
  intro hdom
  have hbefore := h.result_before hd hdom
  simp [isDefinedBefore] at hbefore

theorem not_mem_new (hv : v ∈ body.definedValues) (hne : call.dest? ≠ some v) : v ∉ dests ops :=
  fun hmem => (h.new v hmem).elim hne fun hnot => hnot hv

end Values

end Expands

theorem Dominated.mem_definedValues {c : BlockId} {k : Nat} {v : Operand}
    (h : body.Dominated c k v) :
    v ∈ body.definedValues := by
  obtain ⟨site, hsite, -⟩ := h
  exact mem_definedValues_of_definedAt hsite

namespace Expands

variable {body body' : Body} {r : Operand → Operand} {b c t : BlockId} {pre ops post : List Op}
  {call op : Op} {callee : Callee K} {returned : Option Operand} {quiet : Prop} {k : Nat}
  {m m' : Memory V} {d v : Operand}

variable (h : Expands body body' r b pre call ops post callee returned quiet)
include h

theorem read (hdom : body.Dominated c k v) (hagree : Agree body r call ops c k m m') :
    m.store v = m'.store (r v) := by
  by_cases hv : call.dest? = some v
  · exact hagree.result v hv hdom
  · rw [h.keeps v hv]
    exact hagree.store v (h.not_mem_new hdom.mem_definedValues hv) hv

/-- The result of the call may go by the name of a value that was there before. -/
theorem before_of_definedAt (hd : call.dest? = some d) {site : DefSite}
    (hsite : body.DefinedAt (r d) site) :
    site = .op b pre.length ∨ isDefinedBefore body.dominators b pre.length site = true := by
  rcases (h.result d hd).2 with hnew | ⟨other, hother, hbefore⟩
  · rcases h.new _ hnew with hsame | hnot
    · exact .inl (h.checked.site_unique hsite (h.definedAt_result hsame))
    · exact absurd (mem_definedValues_of_definedAt hsite) hnot
  · exact .inr (h.checked.site_unique hother hsite ▸ hbefore)

theorem dest_ne (hd : call.dest? = some d) (hop : (body.block c).ops[k]? = some op)
    (hne : (c, k) ≠ (b, pre.length)) (hdom : body.Dominated c (k + 1) d) :
    op.dest? ≠ some (r d) := by
  intro hdest
  have hc := lt_blockCount_of_getElem? hop
  have hafter := h.result_before hd hdom
  have hsite : body.DefinedAt (r d) (.op c k) := ⟨hc, op, hop, hdest⟩
  rcases h.before_of_definedAt hd hsite with heq | hbefore
  · grind
  · simp only [isDefinedBefore] at hafter hbefore
    by_cases hcb : c = b
    · grind
    · rw [if_neg hcb] at hbefore
      rw [if_neg (Ne.symm hcb)] at hafter
      exact hcb (Dominators.dominates_antisymm (h.checked.block c hc).reachable
        (h.checked.block b h.spliced.inside).reachable hbefore hafter)

theorem not_mem_phiDests (hd : call.dest? = some d) (ht : t < body.blockCount)
    (hdom : body.Dominated t 0 d) : r d ∉ (body.block t).phiDests := by
  intro hmem
  have hafter := h.result_before hd hdom
  have hsite : body.DefinedAt (r d) (.phi t) := ⟨ht, hmem⟩
  rcases h.before_of_definedAt hd hsite with heq | hbefore
  · cases heq
  · simp only [isDefinedBefore] at hafter hbefore
    by_cases htb : b = t
    · grind
    · rw [if_neg htb] at hafter
      exact htb (Dominators.dominates_antisymm (h.checked.block b h.spliced.inside).reachable
        (h.checked.block t ht).reachable hafter hbefore)

/-! ## Agreement along a run -/

theorem agree_next (hop : (body.block c).ops[k]? = some op) (hne : (c, k) ≠ (b, pre.length))
    (hagree : Agree body r call ops c k m m') (value : Option V) :
    Agree body r call ops c (k + 1) (m.after op.effect value)
      (m'.after (op.mapUses r).effect value) := by
  have hc := lt_blockCount_of_getElem? hop
  -- the result is defined by the call alone
  have hresult : ∀ d, call.dest? = some d → op.dest? ≠ some d := fun d hd hdest => by
    have hsite : body.DefinedAt d (.op c k) := ⟨hc, op, hop, hdest⟩
    cases h.checked.site_unique hsite (h.definedAt_result hd)
    exact hne rfl
  have hdom : ∀ d, call.dest? = some d → body.Dominated c (k + 1) d → body.Dominated c k d := by
    intro d hd hafter
    refine ⟨_, h.definedAt_result hd, ?_⟩
    have hbefore := h.result_before hd hafter
    simp only [isDefinedBefore] at hbefore ⊢
    split at hbefore
    next heq => grind
    next hbc => rwa [if_neg hbc]
  have hdest' : (op.mapUses r).effect.dest? = op.effect.dest? := by
    rw [Op.dest?_effect, Op.dest?_effect, Op.dest?_mapUses]
  refine ⟨by simpa using hagree.caught, fun v hnew hv => ?_, fun d hd hafter => ?_⟩
  · exact Memory.store_after_eq hdest' (hagree.store v hnew hv) (.inl rfl) value
  · refine Memory.store_after_eq hdest' (hagree.result d hd (hdom d hd hafter)) (.inr ?_) value
    rw [Op.dest?_effect]
    exact ⟨hresult d hd, h.dest_ne hd hop hne hafter⟩

theorem dominated_of_exit (hd : call.dest? = some d) (hleaves : body.LeavesAt c k t)
    (hdom : body.Dominated c (body.exitPosition c t) d) : body.Dominated c k d := by
  refine ⟨_, h.definedAt_result hd, ?_⟩
  have hbefore := h.result_before hd hdom
  simp only [isDefinedBefore] at hbefore ⊢
  split at hbefore
  next heq =>
    subst heq
    rw [if_pos rfl]
    rcases h.checked.dest_lt_of_leavesAt hleaves h.call_at hd with hlt | ⟨-, -, ht⟩
    · exact decide_eq_true hlt
    · simp [Block.handlerTargets, h.no_handlers] at ht
  next hbc => rwa [if_neg hbc]

theorem agree_enter (hleaves : body.LeavesAt c k t) (hagree : Agree body r call ops c k m m')
    (x : V) :
    Agree body r call ops t 0 ⟨fun v => m.store (body.picks c t v), m.result, x⟩
      ⟨fun v => m'.store (body'.picks c t v), m'.result, x⟩ := by
  obtain ⟨ht, hpred⟩ := h.checked.edge_of_leavesAt hleaves
  have hphis : (body'.block t).phiDests = (body.block t).phiDests := h.spliced.phiDests_eq t
  have hnodup := nodup_phiDests_block h.checked.defined_nodup ht
  refine ⟨rfl, fun v hnew hv => ?_, fun d hd hdom => ?_⟩
  · change m.store (body.picks c t v) = m'.store (body'.picks c t v)
    by_cases hmem : v ∈ (body.block t).phiDests
    · obtain ⟨phi, hphi, rfl⟩ := List.mem_map.1 hmem
      obtain ⟨o, ho⟩ := Block.incoming?_of_mem hpred ((h.checked.block t ht).arity phi hphi)
      have ho' := Block.incoming?_map (h.spliced.preds t) ho r
      have hphi' : { phi with operands := phi.operands.map r } ∈ (body'.block t).phis := by
        rw [h.spliced.phis]
        exact List.mem_map_of_mem hphi
      rw [picks_of_phi hnodup hphi ho, picks_of_phi (hphis ▸ hnodup) hphi' ho']
      have hexit := h.checked.phi t ht phi hphi _ (Block.mem_zip_of_incoming? ho)
      by_cases hd : call.dest? = some o
      · exact h.read (h.dominated_of_exit hd hleaves hexit) hagree
      · rw [h.keeps o hd]
        exact hagree.store o (h.not_mem_new hexit.mem_definedValues hd) hd
    · rw [picks_of_not_phi hmem, picks_of_not_phi (hphis ▸ hmem)]
      exact hagree.store v hnew hv
  · change m.store (body.picks c t d) = m'.store (body'.picks c t (r d))
    have hbefore := h.result_before hd hdom
    have hbt : b ≠ t := by
      rintro rfl
      simp [isDefinedBefore] at hbefore
    have hnot : d ∉ (body.block t).phiDests := fun hmem => by
      have hsite : body.DefinedAt d (.phi t) := ⟨ht, hmem⟩
      cases h.checked.site_unique hsite (h.definedAt_result hd)
    have hnot' := h.not_mem_phiDests hd ht hdom
    rw [picks_of_not_phi hnot, picks_of_not_phi (hphis ▸ hnot')]
    refine hagree.result d hd ?_
    rcases h.checked.dominated_of_leavesAt hleaves (h.definedAt_result hd) hbefore hbt with
      hdom' | ⟨heq, -, hhandler⟩
    · exact hdom'
    · cases heq
      simp [Block.handlerTargets, h.no_handlers] at hhandler

section

variable (hagree : Agree body r call ops b pre.length m m')
include hagree

theorem read_argument (hv : v ∈ call.uses) : m.store v = m'.store v := by
  have hdom := h.checked.use b h.spliced.inside _ _ h.call_at v hv
  have hne : call.dest? ≠ some v := fun hd => h.not_dominated_at_call hd hdom
  exact hagree.store v (h.not_mem_new hdom.mem_definedValues hne) hne

theorem hold_arguments (blank : V) :
    (Names.ofArguments call.uses).Hold (.fresh blank (call.uses.map m.store)) m' := by
  refine ⟨fun x v hv => ?_, fun v hv => by cases hv⟩
  change call.uses[x]? = some v at hv
  change (call.uses.map m.store).getD x blank = m'.store v
  rw [List.getD_eq_getElem?_getD, List.getElem?_map, hv]
  exact h.read_argument hagree (List.mem_of_getElem? hv)

theorem agree_returned {mq : Memory V} {names : Names}
    (hold : names.Hold mq m') {value : Option Nat}
    (hvalue : value.map names.value = returned.map some) :
    Agree body r call ops b (pre.length + 1) (m.after call.effect (value.map mq.store)) m' := by
  refine ⟨by simpa using hagree.caught, fun v hnew hv => ?_, fun d hd _ => ?_⟩
  · rw [m.store_after_of_ne (by rwa [Op.dest?_effect]), hagree.store v hnew hv]
  · rw [(h.result d hd).1, Option.map_some] at hvalue
    obtain ⟨x, rfl, hx⟩ := Option.map_eq_some_iff.1 hvalue
    rw [Option.map_some, m.store_after_self (by rwa [Op.dest?_effect])]
    exact hold.value x (r d) hx

end

/-! ## Positions -/

theorem outside_call (hne : (c, k) ≠ (b, pre.length)) :
    c = b → k < pre.length ∨ pre.length + [call].length ≤ k := by
  rintro rfl
  have : k ≠ pre.length := fun hk => hne (hk ▸ rfl)
  rw [List.length_singleton]
  omega

theorem position_succ (hne : (c, k) ≠ (b, pre.length)) :
    h.spliced.position c (k + 1) = h.spliced.position c k + 1 := by
  by_cases hc : c = b
  · subst hc
    have := h.outside_call hne rfl
    rw [h.spliced.position_self, h.spliced.position_self, shifted, shifted]
    rw [List.length_singleton] at this ⊢
    split <;> split <;> omega
  · rw [h.spliced.position_of_ne hc, h.spliced.position_of_ne hc]

theorem position_zero (t : BlockId) : h.spliced.position t 0 = 0 := by
  by_cases ht : t = b
  · rw [ht, h.spliced.position_self, shifted, if_neg (by simp)]
  · rw [h.spliced.position_of_ne ht]

theorem position_call : h.spliced.position b pre.length = pre.length := by
  rw [h.spliced.position_self, shifted, if_neg (by simp)]

theorem position_behind :
    h.spliced.position b (pre.length + 1) = pre.length +
      (callee.guards call.uses ++ ops).length := by
  rw [h.spliced.position_self, shifted, if_pos (by simp), List.length_singleton, Nat.add_sub_cancel]

theorem effect?_position (hne : (c, k) ≠ (b, pre.length)) :
    body'.routine.effect? (c, h.spliced.position c k) =
      ((body.block c).ops[k]?).map fun op => (op.mapUses r).effect := by
  change ((body'.block c).ops[_]?).map Op.effect = _
  rw [h.spliced.getElem?_position (h.outside_call hne), Option.map_map]
  rfl

theorem effect?_elsewhere (hop : (body.block c).ops[k]? = some op)
    (hne : (c, k) ≠ (b, pre.length)) :
    body'.routine.effect? (c, h.spliced.position c k) = some (op.mapUses r).effect := by
  rw [h.effect?_position hne, hop, Option.map_some]

theorem effect?_inside {done rest : List Op} (hops : ops = done ++ op :: rest) :
    body'.routine.effect? (b, pre.length + ((callee.guards call.uses).length + done.length)) =
      some op.effect := by
  change ((body'.block b).ops[_]?).map Op.effect = _
  rw [h.spliced.getElem?_mid (by simp [hops]), hops,
    List.getElem?_append_right (by omega), Nat.add_sub_cancel_left]
  simp

end Expands

/-! ## Together -/

variable {body body' : Body} {r : Operand → Operand} {b : BlockId} {pre ops post : List Op}
  {call : Op} {callee : Callee K} {returned : Option Operand} {quiet : Prop}

/-- Where the runs of the two bodies are at the same time.  The number counts how often one of them
can go on alone, and while the call is still to come that is bounded by `bound`. -/
inductive Beside (h : Expands body body' r b pre call ops post callee returned quiet) (blank : V)
    (bound : Nat) : Nat → Option (Activity (BlockId × Nat) K V W) →
    Option (Activity (BlockId × Nat) K V W) → Prop where
  | caller {c : BlockId} {k : Nat} {w : W} {m m' : Memory V} : Agree body r call ops c k m m' →
      Beside h blank bound (if (c, k) = (b, pre.length) then bound + 2 else 0)
        (some (.caller ⟨(c, k), w, m⟩)) (some (.caller ⟨(c, h.spliced.position c k), w, m'⟩))
  | waiting {c : BlockId} {k : Nat} {op : Op} {m m' : Memory V} {code : Routine K} {given : Nat → V}
      {config : Config K V W} : (c, k) ≠ (b, pre.length) → (body.block c).ops[k]? = some op →
      op.canThrow = true → Agree body r call ops c k m m' →
      Beside h blank bound 0 (some (.callee (c, k) m code given config))
        (some (.callee (c, h.spliced.position c k) m' code given config))
  | inside {n : Nat} {k : K} {names : Names} {done rest : List Op} {w : W} {m mq m' : Memory V} :
      ops = done ++ rest → Mirrors callee.routine call.uses returned quiet n k names rest →
      names.Hold mq m' → Agree body r call ops b pre.length m m' →
      Beside h blank bound (n + 1)
        (some (.callee (b, pre.length) m callee.routine
          (passed blank (call.uses.map m.store)) ⟨k, w, mq⟩))
        (some (.caller ⟨(b, pre.length + ((callee.guards call.uses).length + done.length)), w, m'⟩))
  | ended : Beside h blank bound 0 none none

namespace Expands

variable {c t : BlockId} {k : Nat} {op : Op} {w : W} {m m' : Memory V} {host : Host V W}
  {args : Nat → V}
  {blank : V} {bound : Nat} (h : Expands body body' r b pre call ops post callee returned quiet)
include h

theorem beside_next (hne : (c, k) ≠ (b, pre.length))
    (hagree : Agree body r call ops c (k + 1) m m') :
    ∃ n, Beside h blank bound n (some (.caller ⟨(c, k + 1), w, m⟩))
      (some (.caller ⟨(c, h.spliced.position c k + 1), w, m'⟩)) := by
  rw [← h.position_succ hne]
  exact ⟨_, .caller hagree⟩

theorem beside_enter (hleaves : body.LeavesAt c k t) (hagree : Agree body r call ops c k m m')
    (x : V) :
    ∃ n, Beside h blank bound n
      (some (.caller (body.routine.enter (c, k) t w { m with caught := x })))
      (some (.caller (body'.routine.enter (c, h.spliced.position c k) t w
        { m' with caught := x }))) := by
  have hnext : ∃ n, Beside h blank bound n _ _ :=
    ⟨_, .caller (w := w) (h.agree_enter hleaves hagree x)⟩
  rwa [h.position_zero] at hnext

theorem handles (hop : (body.block c).ops[k]? = some op) (hthrows : op.canThrow = true)
    (hagree : Agree body r call ops c k m m') :
    Handles body.routine body'.routine (Beside (W := W) h blank bound) (c, k)
      (c, h.spliced.position c k) m m' := by
  intro w x
  change SameHandlers _ (body.block c).handlers (body'.block c).handlers
  rw [h.spliced.handlers]
  refine List.forall₂_same.2 fun handler hmem => ⟨rfl, ?_⟩
  exact h.beside_enter ⟨op, hop, .inr ⟨hthrows, List.mem_map_of_mem hmem⟩⟩ hagree x

theorem matched_elsewhere (hop : (body.block c).ops[k]? = some op) (hne : (c, k) ≠ (b, pre.length))
    (hagree : Agree body r call ops c k m m') :
    MatchedBoth (body.routine.Step host args) (body'.routine.Step host args)
      (fun n x y => Beside h blank bound n (x.map .caller) (y.map .caller))
      (some ⟨(c, k), w, m⟩) (some ⟨(c, h.spliced.position c k), w, m'⟩) := by
  have hc := lt_blockCount_of_getElem? hop
  have he := effect?_routine hop
  have he' := h.effect?_elsewhere hop hne
  refine matched_both he he' (op.corresponds_mapUses r) ?_ hagree.caught ?_
  · rintro u v ⟨hu, rfl⟩
    exact h.read (h.checked.use c hc k op hop u hu) hagree
  constructor
  case next => exact fun _ _ value _ => h.beside_next hne (h.agree_next hop hne hagree value)
  case jump =>
    rintro _ w' t _ hrun - rfl
    have hnext : ∃ n, Beside h blank bound n _ _ :=
      h.beside_enter (w := w') (leavesAt_of_jump hop hrun) hagree m.caught
    rwa [show { m' with caught := m.caught } = m' by rw [hagree.caught]] at hnext
  case raise =>
    intro _ w' x hrun
    exact h.handles hop (Op.canThrow_of_raise hrun) hagree w' x
  case ends => exact ⟨0, .ended⟩

end Expands

/-- What the calls of the two bodies run: the one call its callee, all others the same. -/
structure SameCalls (h : Expands body body' r b pre call ops post callee returned quiet)
    (calls calls' : BlockId × Nat → Option (Callee K)) : Prop where
  here : calls (b, pre.length) = some callee
  others : ∀ c k, (c, k) ≠ (b, pre.length) → calls' (c, h.spliced.position c k) = calls (c, k)
  inside : ∀ j < (callee.guards call.uses ++ ops).length, calls' (b, pre.length + j) = none
  throws : ∀ c k op, calls (c, k) ≠ none → (body.block c).ops[k]? = some op → op.canThrow = true

namespace Expands

variable {c t : BlockId} {k : Nat} {op : Op} {w : W} {m m' : Memory V} {host : Host V W}
  {args : Nat → V}
  {blank : V} {bound : Nat} {h : Expands body body' r b pre call ops post callee returned quiet}
  {calls calls' : BlockId × Nat → Option (Callee K)} (hcalls : SameCalls h calls calls')
  {shows : Observation V → Bool}
include hcalls

theorem matched_caller (hne : (c, k) ≠ (b, pre.length)) (hagree : Agree body r call ops c k m m') :
    MatchedBoth (body.routine.CallStep calls host args blank)
      (body'.routine.CallStep calls' host args blank)
      (Beside h blank bound) (some (.caller ⟨(c, k), w, m⟩))
        (some (.caller ⟨(c, h.spliced.position c k), w, m'⟩)) := by
  cases hop : (body.block c).ops[k]? with
  | none =>
    have he : body.routine.effect? (c, k) = none := by
      change ((body.block c).ops[k]?).map Op.effect = _
      rw [hop, Option.map_none]
    have he' : body'.routine.effect? (c, h.spliced.position c k) = none := by
      rw [h.effect?_position hne, hop, Option.map_none]
    exact ⟨fun _ _ hstep => absurd hstep (not_callStep_of_no_effect he),
      fun _ _ hstep => absurd hstep (not_callStep_of_no_effect he')⟩
  | some op =>
    have he := effect?_routine hop
    have he' := h.effect?_elsewhere hop hne
    have hsame := hcalls.others c k hne
    cases hcode : calls (c, k) with
    | none =>
      obtain ⟨hforth, hback⟩ := h.matched_elsewhere (w := w) hop hne hagree
      exact ⟨matched_own hcode (hsame.trans hcode) hforth,
        matched_own (hsame.trans hcode) hcode hback⟩
    | some other =>
      have hthrows := hcalls.throws c k op (by simp [hcode]) hop
      have hvalues : op.effect.operands.map m.store = (op.mapUses r).effect.operands.map
          m'.store := by
        rw [Op.operands_effect, Op.operands_effect, Op.uses_mapUses, List.map_map]
        refine List.map_congr_left fun u hu => ?_
        exact h.read (h.checked.use c (lt_blockCount_of_getElem? hop) k op hop u hu) hagree
      have hwait : ∀ given (config : Config K V W), ∃ n, Beside h blank bound n
          (some (.callee (c, k) m other.routine given config))
          (some (.callee (c, h.spliced.position c k) m' other.routine given config)) :=
        fun _ _ => ⟨0, .waiting hne hop hthrows hagree⟩
      have hhandles : Handles body.routine body'.routine (Beside (W := W) h blank bound) (c, k)
        (c, h.spliced.position c k) m m' := h.handles hop hthrows hagree
      exact ⟨matched_call hcode (hsame.trans hcode) he he' hvalues hwait hhandles ⟨0, .ended⟩,
        matched_call (hsame.trans hcode) hcode he' he hvalues.symm hwait hhandles.symm ⟨0, .ended⟩⟩

omit hcalls in
theorem matched_waiting {code : Routine K} {given : Nat → V} {config : Config K V W}
    (hne : (c, k) ≠ (b, pre.length))
    (hop : (body.block c).ops[k]? = some op) (hthrows : op.canThrow = true)
    (hagree : Agree body r call ops c k m m') :
    MatchedBoth (body.routine.CallStep calls host args blank)
      (body'.routine.CallStep calls' host args blank)
      (Beside h blank bound) (some (.callee (c, k) m code given config))
      (some (.callee (c, h.spliced.position c k) m' code given config)) := by
  have he := effect?_routine hop
  have he' := h.effect?_elsewhere hop hne
  have hinner : ∀ config', ∃ n, Beside h blank bound n (some (.callee (c, k) m code given config'))
      (some (.callee (c, h.spliced.position c k) m' code given config')) :=
    fun (config' : Config K V W) => ⟨0, .waiting hne hop hthrows hagree⟩
  have hnext : ∀ (w : W) value, ∃ n, Beside h blank bound n
      (some (.caller ⟨(c, k + 1), w, m.after op.effect value⟩))
      (some (.caller ⟨(c, h.spliced.position c k + 1), w, m'.after (op.mapUses r).effect value⟩)) :=
    fun w value => h.beside_next hne (h.agree_next hop hne hagree value)
  have hhandles : Handles body.routine body'.routine (Beside (W := W) h blank bound) (c, k)
    (c, h.spliced.position c k) m m' := h.handles hop hthrows hagree
  exact ⟨matched_inner he he' hinner hnext hhandles ⟨0, .ended⟩,
    matched_inner he' he hinner hnext hhandles.symm ⟨0, .ended⟩⟩

/-- At the call one body runs the callee and the other the operations. -/
theorem lockstep_call (hagree : Agree body r call ops b pre.length m m')
    (hmirrors : Mirrors callee.routine call.uses returned quiet bound callee.entry
      (.ofArguments call.uses) ops) :
    (∃ a, Slips (body.routine.CallStep calls host args blank)
      (some (.caller ⟨(b, pre.length), w, m⟩)) a ∧
      Beside h blank bound (bound + 1) a (some (.caller ⟨(b, pre.length), w, m'⟩))) ∨
    MatchedBoth (body.routine.CallStep calls host args blank)
      (body'.routine.CallStep calls' host args blank)
      (Beside h blank bound) (some (.caller ⟨(b, pre.length), w, m⟩))
        (some (.caller ⟨(b, pre.length), w, m'⟩)) := by
  have he := effect?_routine h.call_at
  have hchecked : callee.checked (call.effect.operands.map m.store) =
      (callee.checked call.uses).map m.store := by
    rw [Op.operands_effect, callee.checked_map]
  have hinside : ∀ (w' : W) (m'' : Memory V), m''.store = m'.store → m''.caught = m'.caught →
      Beside h blank bound (bound + 1) (some (.callee (b, pre.length) m callee.routine
        (passed blank (call.effect.operands.map m.store))
        ⟨callee.entry, w', .fresh blank (call.effect.operands.map m.store)⟩))
        (some (.caller ⟨(b, pre.length + ((callee.guards call.uses).length + 0)), w', m''⟩)) := by
    intro w' m'' hstore hcaught
    rw [Op.operands_effect]
    have hagree' : Agree body r call ops b pre.length m m'' :=
      ⟨hagree.caught.trans hcaught.symm, fun v hnew hv => hstore ▸ hagree.store v hnew hv,
        fun d hd hdom => hstore ▸ hagree.result d hd hdom⟩
    exact .inside (List.nil_append ops).symm hmirrors (h.hold_arguments hagree' blank) hagree'
  rcases callee.guards_cases call.uses with ⟨hnone, hguards⟩ | ⟨v, hv, hsome, hguards⟩
  · refine .inl ⟨_, slips_call hcalls.here he (by rw [hchecked, hnone]; rfl), ?_⟩
    have hat := hinside w m' rfl rfl
    rwa [hguards] at hat
  · refine .inr ?_
    rw [hsome] at hchecked
    have hlength : 0 < (callee.guards call.uses ++ ops).length := by simp [hguards]
    have hop : (body'.block b).ops[pre.length]? = some (.nullCheck v) := by
      rw [← Nat.add_zero pre.length, h.spliced.getElem?_mid hlength, hguards]
      rfl
    have hnull : body'.routine.effect? (b, pre.length) = some (.act .nullCheck [v] none) :=
      effect?_routine hop
    have hown : calls' (b, pre.length) = none := hcalls.inside 0 hlength
    have hhandlers : body.routine.handlers (b, pre.length) = [] := h.no_handlers
    have hhandlers' : body'.routine.handlers (b, pre.length) = [] :=
      (h.spliced.handlers b).trans h.no_handlers
    have hnext : ∀ (value : V) (w' : W), ∃ n, Beside h blank bound n _ _ := fun value w' =>
      ⟨_, hinside w' (m'.after (.act .nullCheck [v] none) (some value)) rfl rfl⟩
    rw [hguards] at hnext
    have hvalues : [v].map m'.store = [m.store v] := by
      rw [h.read_argument hagree hv, List.map_singleton]
    exact ⟨matched_of_attempts (fun _ _ => call_iff_attempts hcalls.here he hhandlers hchecked)
        (fun _ _ => own_iff_attempts hown hnull hhandlers' hvalues) hnext ⟨0, .ended⟩,
      matched_of_attempts (fun _ _ => own_iff_attempts hown hnull hhandlers' hvalues)
        (fun _ _ => call_iff_attempts hcalls.here he hhandlers hchecked) hnext ⟨0, .ended⟩⟩

omit hcalls in
theorem next_inside {g : Nat} {done : List Op} (op : Op) :
    body'.routine.next (b, pre.length + (g + done.length)) =
      (b, pre.length + (g + (done ++ [op]).length)) := by
  change (b, pre.length + (g + done.length) + 1) = _
  rw [List.length_append, List.length_singleton, Nat.add_assoc, Nat.add_assoc]

omit hcalls in
theorem agree_inside (h : Expands body body' r b pre call ops post callee returned quiet)
    (e : Effect)
    (he : ∀ v, e.dest? = some v → v ∈ dests ops) (hagree : Agree body r call ops b pre.length m m')
    (value : Option V) : Agree body r call ops b pre.length m (m'.after e value) := by
  refine ⟨by simpa using hagree.caught, fun v hnew hv => ?_, fun d hd hdom => ?_⟩
  · rw [m'.store_after_of_ne fun hdest => hnew (he v hdest)]
    exact hagree.store v hnew hv
  · exact absurd hdom (h.not_dominated_at_call hd)

variable (hquiet : quiet → ∀ number, shows (.line number) = false)
include hquiet

/-- While the callee runs, the operations follow it. -/
theorem lockstep_inside {n : Nat} {place : K} {names : Names}
    {done rest : List Op} {mq : Memory V} (hops : ops = done ++ rest)
    (hmirrors : Mirrors callee.routine call.uses returned quiet n place names rest)
    (hold : names.Hold mq m') (hagree : Agree body r call ops b pre.length m m')
    {a b' : Option (Activity (BlockId × Nat) K V W)}
    (ha : a = some (.callee (b, pre.length) m callee.routine (passed blank (call.uses.map m.store))
      ⟨place, w, mq⟩))
    (hb : b' = some
      (.caller ⟨(b, pre.length + ((callee.guards call.uses).length + done.length)), w, m'⟩)) :
    (∃ i < n + 1, ∃ a', Slips ((body.routine.CallStep calls host args blank).showing shows) a a' ∧
      Beside h blank bound i a' b') ∨
    (∃ i < n + 1, ∃ c, Slips ((body'.routine.CallStep calls' host args blank).showing shows) b' c ∧
      Beside h blank bound i a c) ∨
    MatchedBoth (body.routine.CallStep calls host args blank)
      (body'.routine.CallStep calls' host args blank)
      (Beside h blank bound) a b' := by
  subst ha hb
  cases hmirrors with
  | @line n _ _ _ number hq he hnext =>
    exact .inl ⟨n + 1, by omega, _, slips_inner (slips_of_line he (hquiet hq number)),
      .inside hops hnext hold hagree⟩
  | @argument n _ _ _ x index v he hgiven hnext =>
    refine .inl ⟨n + 1, by omega, _, slips_inner ((slips_of_moves he .argument).showing shows), ?_⟩
    rw [mq.after_of_dest rfl]
    refine .inside hops hnext (hold.rename ?_) hagree
    rw [passed, List.getD_eq_getElem?_getD, List.getElem?_map, hgiven]
    exact h.read_argument hagree (List.mem_of_getElem? hgiven)
  | @copy n _ _ _ x y v he hy hnext =>
    refine .inl ⟨n + 1, by omega, _, slips_inner ((slips_of_moves he .copy).showing shows), ?_⟩
    rw [mq.after_of_dest rfl]
    exact .inside hops hnext (hold.rename (hold.value y v hy)) hagree
  | @result n _ _ _ x v he hresult hnext =>
    refine .inl ⟨n + 1, by omega, _, slips_inner ((slips_of_moves he .result).showing shows), ?_⟩
    rw [mq.after_of_dest rfl]
    exact .inside hops hnext (hold.rename (hold.result v hresult)) hagree
  | @goto n _ _ _ t he hsource hnext =>
    refine .inl ⟨n + 1, by omega, _, slips_inner ((slips_of_goto he).showing shows), ?_⟩
    refine .inside hops hnext ⟨fun x v hv => ?_, hold.result⟩ hagree
    change mq.store (callee.routine.source place t x) = _
    rw [hsource, hold.value x v hv]
  | @move n _ _ rest x u v hx hreceive hnext =>
    have hdest : v ∈ dests ops := mem_dests.2 ⟨.move v u, by simp [hops], rfl⟩
    have hown : calls' (b, pre.length + ((callee.guards call.uses).length + done.length)) = none :=
      hcalls.inside _ (by simp [hops])
    refine .inr (.inl ⟨n + 1, by omega, _,
      slips_own hown ((slips_of_moves (h.effect?_inside hops) .copy).showing shows), ?_⟩)
    have hold' := hold.receive (.copy x x) (.copy v u) hreceive (mq.store x)
    rw [mq.after_of_dest rfl, Function.update_eq_self, hold.value x u hx] at hold'
    rw [next_inside (.move v u)]
    exact .inside (by simp [hops]) hnext hold'
      (agree_inside h (.copy v u) (fun _ hv => Option.some.inj hv ▸ hdest) hagree _)
  | @act n _ _ names' rest op action xs dest vs dest' he heffect hne hhandlers hall
      hreceive hnext =>
    have hown : calls' (b, pre.length + ((callee.guards call.uses).length + done.length)) = none :=
      hcalls.inside _ (by simp [hops])
    have he' := h.effect?_inside hops
    rw [heffect] at he'
    have hvalues : vs.map m'.store = xs.map mq.store :=
      (map_eq_of_forall₂ (fun x v hv => hold.value x v hv) hall).symm
    have hdest : ∀ v, dest' = some v → v ∈ dests ops := by
      rintro v rfl
      refine mem_dests.2 ⟨op, by simp [hops], ?_⟩
      rw [← Op.dest?_effect, heffect]
      rfl
    have hgo : ∀ (value : V) (w' : W), ∃ i, Beside h blank bound i
        (some (.callee (b, pre.length) m callee.routine (passed blank (call.uses.map m.store))
          ⟨callee.routine.next place, w', mq.after (.act action xs dest) (some value)⟩))
        (some (.caller
          ⟨body'.routine.next (b, pre.length + ((callee.guards call.uses).length + done.length)),
          w',
            m'.after (.act action vs dest') (some value)⟩)) := by
      intro value w'
      rw [next_inside op]
      exact ⟨_, .inside (by simp [hops]) hnext
        (hold.receive (.act action xs dest) (.act action vs dest') hreceive value)
        (agree_inside h (.act action vs dest') hdest hagree _)⟩
    have hl : body.routine.handlers (b, pre.length) = [] := h.no_handlers
    have hl' : body'.routine.handlers
        (b, pre.length + ((callee.guards call.uses).length + done.length)) = [] :=
      (h.spliced.handlers b).trans h.no_handlers
    exact .inr (.inr ⟨matched_of_attempts (fun _ _ => inner_iff_attempts he hhandlers hl rfl)
        (fun _ _ => own_iff_attempts hown he' hl' hvalues) hgo ⟨0, .ended⟩,
      matched_of_attempts (fun _ _ => own_iff_attempts hown he' hl' hvalues)
        (fun _ _ => inner_iff_attempts he hhandlers hl rfl) hgo ⟨0, .ended⟩⟩)
  | @ret _ _ value he hvalue =>
    refine .inl ⟨0, by omega, _, (slips_returns he (effect?_routine h.call_at)).showing shows, ?_⟩
    have hbeside : Beside h blank bound _ _ _ :=
      .caller (w := w) (h.agree_returned hagree hold hvalue)
    have hlength : (callee.guards call.uses).length + done.length =
        (callee.guards call.uses ++ ops).length := by simp [hops]
    rw [h.position_behind, if_neg (by simp), ← hlength] at hbeside
    exact hbeside

theorem lockstep
    (hmirrors : Mirrors callee.routine call.uses returned quiet bound callee.entry
      (.ofArguments call.uses) ops) :
    Lockstep ((body.routine.CallStep calls host args blank).showing shows)
      ((body'.routine.CallStep calls' host args blank).showing shows)
      (Beside (W := W) h blank bound) := by
  intro n x y hbeside
  cases hbeside with
  | @caller c k w m m' hagree =>
    by_cases hne : (c, k) = (b, pre.length)
    · obtain ⟨rfl, rfl⟩ := Prod.mk.inj hne
      rw [h.position_call, if_pos rfl]
      rcases lockstep_call hcalls (w := w) hagree hmirrors with ⟨a, hslips, hnext⟩ | hmatched
      · exact .inl ⟨bound + 1, by omega, a, hslips.showing shows, hnext⟩
      · exact .inr (.inr (hmatched.showing shows))
    · exact .inr (.inr ((matched_caller hcalls hne hagree).showing shows))
  | waiting hne hop hthrows hagree =>
    exact .inr (.inr ((matched_waiting hne hop hthrows hagree).showing shows))
  | inside hops hnext hold hagree =>
    exact (lockstep_inside hcalls hquiet hops hnext hold hagree rfl rfl).imp_right
      (Or.imp_right fun h => h.showing shows)
  | ended =>
    refine .inr (.inr ⟨?_, ?_⟩)
    · rintro seen a ⟨all, hstep, -⟩
      exact absurd hstep not_callStep_none
    · rintro seen a ⟨all, hstep, -⟩
      exact absurd hstep not_callStep_none

/-- The same is seen of a body that calls the code and of one that has the operations in its
place. -/
theorem sameBehaviour (host : Host V W) (args : Nat → V) (blank : V) (w : W) (m : Memory V) :
    SameBehaviour ((body.routine.CallStep calls host args blank).showing shows)
      ((body'.routine.CallStep calls' host args blank).showing shows)
        (some (.caller ⟨(0, 0), w, m⟩))
      (some (.caller ⟨(0, 0), w, m⟩)) := by
  obtain ⟨bound, hmirrors⟩ := h.mirrors
  have hstart : Agree body r call ops 0 0 m m := by
    refine ⟨rfl, fun _ _ _ => rfl, fun d hd hdom => ?_⟩
    -- nothing comes before the entry
    have hbefore := h.result_before hd hdom
    have hpos := Nat.lt_of_le_of_lt (Nat.zero_le b) h.spliced.inside
    simp only [isDefinedBefore] at hbefore
    split at hbefore
    · simp at hbefore
    · rw [dominators, Dominators.not_dominates_entry (by rwa [size_graph]) ‹_›] at hbefore
      cases hbefore
  have hbeside : Beside h blank bound _ _ _ := .caller (w := w) hstart
  rw [h.position_zero] at hbeside
  exact (lockstep hcalls hquiet hmirrors).sameBehaviour hbeside

end Expands

end Body

end Ssa

end BytecodeOpt
