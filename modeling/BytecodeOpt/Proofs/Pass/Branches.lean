import BytecodeOpt.Pass.Branches
import BytecodeOpt.Proofs.Pass.ConstantFolding.Behaviour

/-!
# The way through simpler branches

A host compares if branches go by a number that each value has, which is zero for null and never for
what was just allocated.  On such a host a simpler branch goes where the branch went, so that all
runs take the same way.
-/

namespace BytecodeOpt

open Execution

def Execution.Action.allocates : Action → Bool
  | .newInstance _ | .newArray _ | .filledNewArray _ => true
  | _ => false

/-- The number of a reference is its identity. -/
structure Execution.Host.Compares {V W : Type} (host : Host V W) (number : V → Int)
    (constant : Constant → V) : Prop where
  holds : ∀ cond left right, host.holds cond left right = cond.holds (number left)
    (right.elim 0 number)
  zero : ∀ {c : Constant}, c.isZero = true → host.Gives (.const c) [] (constant c) ∧
    number (constant c) = 0
  fresh : ∀ {action : Action} {w w' : W} {values : List V} {value : V}, action.allocates = true →
    host.performs w action values (.completes value) w' → number value ≠ 0

namespace Pass.Branches

open Ssa Ssa.Body ConstantFolding

variable {old body body' : Body} {b c : BlockId} {k : Nat} {v : Operand} {op : Op}
  {s : Simplification}
  {V W : Type} {host : Host V W} {number : V → Int} {constant : Constant → V} {args : Nat → V}
  {m : Memory V}

/-! ## What a simplification says -/

def allocates : Op → Bool
  | .newInstance .. | .newArray .. | .filledNewArray .. => true
  | _ => false

def Zero (body : Body) (v : Operand) : Prop := ∃ c, IsConst body v c ∧ c.isZero = true

def Fresh (body : Body) (v : Operand) :
    Prop := ∃ b, ∃ op ∈ (body.block b).ops, op.dest? = some v ∧ allocates op = true

inductive Simplifies (body : Body) : Op → Simplification → Prop where
  | same {cond left right target} : Simplifies body (.branch cond left right target target)
      (.jump target)
  | self {cond value onTrue onFalse} :
      Simplifies body (.branch cond value (some value) onTrue onFalse)
      (.jump (if cond.holds 0 0 then onTrue else onFalse))
  | right {cond left right onTrue onFalse} : Zero body right →
      Simplifies body (.branch cond left (some right) onTrue onFalse)
        (.branch (.branch cond left none onTrue onFalse))
  | left {cond left right onTrue onFalse} : Zero body left →
      Simplifies body (.branch cond left (some right) onTrue onFalse)
        (.branch (.branch cond.swapped right none onTrue onFalse))
  | fresh {cond value onTrue onFalse} : cond = .eq ∨ cond = .ne → Fresh body value →
      Simplifies body (.branch cond value none onTrue onFalse)
        (.jump (if cond = .ne then onTrue else onFalse))

theorem simplifies_of_simplify? (h : body.Checked)
    (hs : simplify? body body.constants body.definitions op = some s) :
    Simplifies body op s := by
  have hzero : ∀ v, isZero body.constants v = true → Zero body v := fun v hv => by
    obtain ⟨c, hc, hc'⟩ := (Option.any_eq_true ..).1 hv
    exact ⟨c, ((Tidy.of_checked h).knows_constants.exact v c).1 hc, hc'⟩
  have hfresh : ∀ v, isAllocation body body.definitions v = true → Fresh body v := fun v hv => by
    unfold isAllocation at hv
    cases hop : body.definingOp? body.definitions v with
    | none => simp [hop] at hv
    | some op =>
      obtain ⟨site, hsite, hat⟩ := Option.bind_eq_some_iff.1 hop
      have hdefined := h.getD_definitions.1 hsite
      cases site with
      | phi d => cases hat
      | op d i =>
        obtain ⟨-, other, hother, hdest⟩ := hdefined
        obtain rfl := Option.some.inj (hother.symm.trans hat)
        refine ⟨d, other, List.mem_of_getElem? hother, hdest, ?_⟩
        rw [hop] at hv
        cases other <;> first | rfl | cases hv
  cases op with
  | branch cond left right onTrue onFalse =>
    simp only [simplify?] at hs
    split at hs
    next heq =>
      subst heq
      cases hs
      exact .same
    cases right with
    | some right =>
      simp only at hs
      split at hs
      next heq =>
        subst heq
        cases hs
        exact .self
      split at hs
      next hright =>
        cases hs
        exact .right (hzero _ hright)
      split at hs
      next hleft =>
        cases hs
        exact .left (hzero _ hleft)
      next => cases hs
    | none =>
      simp only at hs
      split at hs
      next hboth =>
        simp only [Bool.and_eq_true, Bool.or_eq_true, decide_eq_true_eq] at hboth
        cases hs
        have hfresh' : Simplifies body (.branch cond left none onTrue onFalse) _ :=
          .fresh hboth.1 (hfresh _ hboth.2)
        simpa using hfresh'
      next => cases hs
  | _ => cases hs

def last : Simplification → Op
  | .jump target => .goto target
  | .branch op => op

theorem holds_self (cond : Condition) (n : Int) : cond.holds n n = cond.holds 0 0 := by
  cases cond <;> simp [Condition.holds]

/-- Where the branch goes, what stands for it goes. -/
theorem Simplifies.onlyDoes (h : Simplifies body op s) (args : Nat → V)
    (hcompares : host.Compares number constant)
    (hzero : ∀ v ∈ op.uses, Zero body v → number (m.store v) = 0)
    (hfresh : ∀ v, Fresh body v → number (m.store v) ≠ 0) :
    ∃ t, OnlyDoes host args m op.effect (.jump t) [] ∧ OnlyDoes host args m (last s).effect
      (.jump t) [] := by
  cases h with
  | @same cond left right target =>
    have hdoes : OnlyDoes host args m (Op.branch cond left right target target).effect _ [] :=
      onlyDoes_branch rfl
    rw [ite_self] at hdoes
    exact ⟨target, hdoes, onlyDoes_goto target⟩
  | self =>
    refine ⟨_, onlyDoes_branch ?_, onlyDoes_goto _⟩
    rw [hcompares.holds]
    exact holds_self ..
  | right hv =>
    refine ⟨_, onlyDoes_branch rfl, onlyDoes_branch ?_⟩
    rw [hcompares.holds, hcompares.holds]
    simp [hzero _ (by simp [Op.uses]) hv]
  | left hv =>
    refine ⟨_, onlyDoes_branch rfl, onlyDoes_branch ?_⟩
    rw [hcompares.holds, hcompares.holds]
    simp [hzero _ (by simp [Op.uses]) hv, Condition.holds_swapped]
  | @fresh cond value onTrue onFalse hcond hv =>
    have hne := hfresh _ hv
    have hholds : host.holds cond (m.store value) (Option.map m.store none) =
        decide (cond = .ne) := by
      rw [hcompares.holds]
      rcases hcond with rfl | rfl <;> simp [Condition.holds, hne]
    have hdoes : OnlyDoes host args m (Op.branch cond value none onTrue onFalse).effect _ [] :=
      onlyDoes_branch hholds
    simp only [decide_eq_true_eq] at hdoes
    exact ⟨_, hdoes, onlyDoes_goto _⟩

/-! ## One branch -/

theorem Simplifies.last_of (h : Simplifies body op s) :
    op.isTerminator = true ∧ (last s).isTerminator = true ∧
    op.dest? = none ∧ (last s).dest? = none ∧ (last s).canThrow = false ∧
      (last s).targets ⊆ op.targets ∧
      (last s).uses ⊆ op.uses := by
  cases h <;> refine ⟨rfl, rfl, rfl, rfl, rfl, fun t ht => ?_, fun v hv => ?_⟩ <;> grind [last,
    Op.targets, Op.uses]

section

variable (ht : Tidy body) (hlast : (body.block b).terminator? = some op) (hs : Simplifies old op s)
include ht hlast hs

theorem exchanged_apply (hunmixed : body.Unmixed) :
    Exchanged body (apply body b s).1 (endFor b (last s)) ∧
    ((∃ op', s = .branch op') → (apply body b s).1.graph = body.graph) := by
  obtain ⟨hterm, hterm', hdest, hdest', hthrow, htargets, huses⟩ := hs.last_of
  cases s with
  | jump target =>
    exact ⟨exchanged_foldBranch ht hlast (htargets (by simp [last, Op.targets])) hunmixed,
      fun ⟨_, h⟩ => by cases h⟩
  | branch op' =>
    have hblock : ∀ c, (apply body b (.branch op')).1.block c =
        { body.block c with ops := (body.block c).ops.map (endFor b op' c) } := fun c => by
      rw [apply, block_modifyBlock]
      by_cases hc : b = c
      · subst hc
        rw [if_pos ⟨rfl, lt_blockCount_of_terminator hlast⟩, Block.mapTerminator_eq,
          ops_mapTerminator ht hlast]
      · rw [if_neg fun h => hc h.1, endFor_of_ne (Ne.symm hc), List.map_id]
    have hend : ∀ {c other}, other ∈ (body.block c).ops → endFor b op' c other = other ∨
        other = op ∧ endFor b op' c other = op' :=
      fun {c other} hother => by
        unfold endFor
        split
        next hhere =>
          obtain ⟨rfl, hterm⟩ := hhere
          exact .inr ⟨eq_of_terminator ht hlast hother hterm, rfl⟩
        next => exact .inl rfl
    have hstands : op'.StandsFor op := by cases hs <;> exact ⟨rfl, rfl, rfl, id, fun _ => id⟩
    suffices h : Exchanged body (apply body b (.branch op')).1 (endFor b op') ∧
        (apply body b (.branch op')).1.graph = body.graph from
      ⟨h.1, fun _ => h.2⟩
    refine ht.sound.exchanged ht.terminated (blockCount_modifyBlock ..) rfl hblock
      (fun c other hother => ?_)
      (fun c other hother => ?_) (fun c other hother _ => ?_) fun c j other hc hother v hv => ?_
    · rcases hend hother with heq | ⟨rfl, heq⟩ <;> rw [heq]
      · exact .refl other
      · exact hstands
    · rcases hend hother with heq | ⟨rfl, heq⟩ <;> rw [heq]
      exact hdest'.trans hdest.symm
    · rcases hend hother with heq | ⟨rfl, heq⟩ <;> rw [heq]
      cases hs <;> rfl
    · refine ht.sound.use c hc j other hother v ?_
      rcases hend (List.mem_of_getElem? hother) with heq | ⟨rfl, heq⟩ <;> rw [heq] at hv
      · exact hv
      · exact huses hv

end

/-- What does not end a block stays. -/
theorem mem_ops_apply (hex : Exchanged body body' (endFor b (last s))) {other : Op}
    (hother : other ∈ (body.block c).ops)
    (hterm : other.isTerminator = false) : other ∈ (body'.block c).ops := by
  rw [hex.ops, List.mem_map]
  exact ⟨other, hother, if_neg fun h => by simp [hterm] at h⟩

/-! ## All branches -/

/-- What holds of a body while its branches are simplified. -/
structure Keeps (old body : Body) : Prop where
  tidy : Tidy body
  unmixed : body.Unmixed
  zero : ∀ v, Zero old v → Zero body v
  fresh : ∀ v, Fresh old v → Fresh body v
  passes : ∀ {V W : Type} {host : Host V W} {number : V → Int} {constant : Constant → V},
    host.Compares number constant →
    ∀ (args : Nat → V) (w : W) (m : Memory V), (∀ v, Fresh old v → number (m.store v) ≠ 0) →
      SameBehaviour ((old.routine.Step host args).passing id)
        ((body.routine.Step host args).passing id)
        (some ⟨(0, 0), w, m⟩) (some ⟨(0, 0), w, m⟩)

section

variable (ht : Tidy body) (hv : Fresh body v)
include ht hv

theorem Fresh.picks_eq (p t : BlockId) : body.picks p t v = v := by
  obtain ⟨d, op, hop, hdest, -⟩ := hv
  obtain ⟨i, hi⟩ := List.mem_iff_getElem?.1 hop
  have hsite : body.DefinedAt v (.op d i) := ⟨lt_blockCount_of_getElem? hi, op, hi, hdest⟩
  refine picks_of_not_phi (fun hmem => ?_) p
  obtain ⟨phi, hphi, -⟩ := List.mem_map.1 hmem
  cases ht.site_unique v (.phi t) _ ⟨lt_blockCount_of_mem_phis hphi, hmem⟩ hsite

/-- A value that is allocated is set by the allocation only. -/
theorem Fresh.store_ne (hcompares : host.Compares number constant) {w w' : W}
    {seen : List (Observation V)} {value : Option V} (hop : (body.block b).ops[k]? = some op)
    (hrun : op.effect.Runs host args w m seen w' (.next value))
    (hne : number (m.store v) ≠ 0) : number ((m.after op.effect value).store v) ≠ 0 := by
  by_cases hdest : op.dest? = some v
  · obtain ⟨d, other, hother, hdest', halloc⟩ := hv
    obtain ⟨i, hi⟩ := List.mem_iff_getElem?.1 hother
    obtain ⟨-, -, rfl⟩ := eq_of_dest ht hop hdest hi hdest'
    cases other <;> cases halloc
    all_goals
      cases hrun with
      | completes hthrow hperforms =>
        rw [m.store_after_self (by simpa using hdest)]
        exact hcompares.fresh rfl hperforms
  · rwa [m.store_after_of_ne (by simpa using hdest)]

end

section

variable (h : Keeps old body) (hlast : (body.block b).terminator? = some op)
  (hs : Simplifies old op s)
include h hlast hs

/-- Both go step by step through the same places, with the same in memory. -/
theorem Keeps.passes_apply (hcompares : host.Compares number constant) (args : Nat → V) (w : W)
    (m : Memory V) (hm : ∀ v, Fresh old v → number (m.store v) ≠ 0) :
    SameBehaviour ((body.routine.Step host args).passing id)
      (((apply body b s).1.routine.Step host args).passing id)
      (some ⟨(0, 0), w, m⟩) (some ⟨(0, 0), w, m⟩) := by
  obtain ⟨hex, -⟩ := exchanged_apply h.tidy hlast hs h.unmixed
  have hb := lt_blockCount_of_terminator hlast
  have halike : ∀ (d : BlockId) (j : Nat) (other : Op) (m : Memory V), body.Reached d →
      (body.block d).ops[j]? = some other →
      (∀ v, Fresh old v → number (m.store v) ≠ 0) →
      (∀ v, body.Dominated d j v → ∀ c, IsConst body v c → c.isZero = true →
        m.store v = constant c) →
      Exchanged.Alike host args sight m other.effect (endFor b (last s) d other).effect := by
    intro d j other m hd hother hfresh hconst
    unfold endFor
    split
    next hhere =>
      obtain ⟨rfl, hterm⟩ := hhere
      obtain rfl := eq_of_terminator h.tidy hlast (List.mem_of_getElem? hother) hterm
      have hzero : ∀ v ∈ other.uses, Zero old v → number (m.store v) = 0 := fun v hv hzero => by
        obtain ⟨c, hc, hc'⟩ := h.zero v hzero
        rw [hconst v (h.tidy.sound.use d hd j other hother v hv) c hc hc']
        exact (hcompares.zero hc').2
      obtain ⟨t, hdoes, hdoes'⟩ := hs.onlyDoes args hcompares hzero hfresh
      exact hdoes.alike hdoes'
    next => exact alike_refl _
  have hlockstep := h.tidy.lockstep (fun c hc => by cases c <;> first | rfl | cases hc)
    (fun c hc => (hcompares.zero hc).1) hex
    (fun store => ∀ v, Fresh old v → number (store v) ≠ 0)
    (fun d t store hstore v hv => by simpa only [(h.fresh v hv).picks_eq h.tidy] using hstore v hv)
    (fun d j other w w' seen m value hother hstore hrun v hv =>
      (h.fresh v hv).store_ne h.tidy hcompares hother hrun (hstore v hv)) halike
  have hpassing := Lockstep.passing id id (R := Exchanged.Related (apply body b s).1
    (fun d j store => body.Settled (Loaded body (fun c => c.isZero = true) constant) d j store ∧
      ∀ v, Fresh old v → number (store v) ≠ 0) 0) hlockstep
    (by rintro _ _ (⟨rfl, rfl⟩ | ⟨d, j, w, m, -, -, rfl, rfl⟩) <;> rfl)
  exact hpassing.sameBehaviour (n := 0) (.inr ⟨0, 0, w, m, reached_zero (hex.pared.count.symm ▸ hb),
    ⟨settled_start (reached_zero hb), hm⟩, rfl, rfl⟩)

theorem Keeps.apply : Keeps old (apply body b s).1 := by
  obtain ⟨hex, -⟩ := exchanged_apply h.tidy hlast hs h.unmixed
  refine ⟨h.tidy.exchanged hex, unmixed_exchanged hex h.unmixed, fun v hv => ?_, fun v hv => ?_,
    fun hcompares args w m hm =>
      (h.passes hcompares args w m hm).trans (h.passes_apply hlast hs hcompares args w m hm)⟩
  · obtain ⟨c, ⟨d, hop⟩, hc⟩ := h.zero v hv
    exact ⟨c, ⟨d, mem_ops_apply hex hop rfl⟩, hc⟩
  · obtain ⟨d, other, hother, hdest, halloc⟩ := h.fresh v hv
    exact ⟨d, other, mem_ops_apply hex hother (by cases other <;> first | rfl | cases halloc),
      hdest, halloc⟩

end

theorem Keeps.foldl {found : List (BlockId × Simplification)} (h : Keeps old body)
    (hnodup : (found.map Prod.fst).Nodup)
    (hfound : ∀ e ∈ found, ∃ op, (body.block e.1).terminator? = some op ∧ Simplifies old op e.2) :
    Keeps old (found.foldl (fun body e => (Branches.apply body e.1 e.2).1) body) ∧
      ((∀ e ∈ found, ∃ op, e.2 = .branch op) →
        (found.foldl (fun body e => (Branches.apply body e.1 e.2).1) body).graph = body.graph) := by
  induction found generalizing body with
  | nil => exact ⟨h, fun _ => rfl⟩
  | cons e found ih =>
    obtain ⟨op, hlast, hs⟩ := hfound e (by simp)
    obtain ⟨hex, hgraph⟩ := exchanged_apply h.tidy hlast hs h.unmixed
    rw [List.map_cons, List.nodup_cons] at hnodup
    obtain ⟨hkeeps, hgraph'⟩ := ih (h.apply hlast hs) hnodup.2 fun e' he' => by
      obtain ⟨op', hlast', hs'⟩ := hfound e' (by simp [he'])
      have hne : e'.1 ≠ e.1 := fun heq => hnodup.1 (heq ▸ List.mem_map_of_mem he')
      refine ⟨op', ?_, hs'⟩
      rwa [Block.terminator?, hex.ops, endFor_of_ne hne, List.map_id]
    refine ⟨hkeeps, fun hbranches => ?_⟩
    rw [List.foldl_cons, hgraph' fun e' he' => hbranches e' (by simp [he']),
      hgraph (hbranches e (by simp))]

/-! ## The blocks that stay -/

/-- A state of a run as it would be in another body. -/
def relocated (origin : BlockId → BlockId) (a : Option (Config (BlockId × Nat) V W)) :
    Option (Config (BlockId × Nat) V W) :=
  a.map fun config => { config with place := (origin config.place.1, config.place.2) }

/-- Each block that stays has been one before, and the runs go through the same ones. -/
theorem exists_origin (hsound : body.Sound) : ∃ origin : BlockId → BlockId,
    (∀ b < body.removeUnreachable.blockCount, ∀ c < body.removeUnreachable.blockCount,
      origin b = origin c → b = c) ∧
      ∀ {V W : Type} (host : Host V W) (args : Nat → V) (w : W) (m : Memory V),
        SameBehaviour ((body.routine.Step host args).passing id)
          ((body.removeUnreachable.routine.Step host args).passing (relocated origin))
          (some ⟨(0, 0), w, m⟩) (some ⟨(0, 0), w, m⟩) := by
  cases hunreachable : body.hasUnreachable with
  | false =>
    rw [removeUnreachable_of_not hunreachable]
    have hid : ∀ {V W : Type}, relocated id = (id : Option (Config (BlockId × Nat) V W) → _) :=
      funext fun a => by
      cases a <;> rfl
    exact ⟨id, fun _ _ _ _ h => h, fun host args w m => by rw [hid]; exact .refl ..⟩
  | true =>
    have hzero := reached_zero_of_hasUnreachable hunreachable
    have hcompacted := compacted_removeUnreachable hsound hunreachable hzero
    generalize compactId (body.graph.reached 0) = f at hcompacted
    choose! origin horigin using hcompacted.onto
    have hback : ∀ b, body.Reached b → origin (f b) = b := fun b hb =>
      hcompacted.inj _ _ (horigin _ (hcompacted.lt b hb)).1 hb (horigin _ (hcompacted.lt b hb)).2
    refine ⟨origin, fun b hb c hc heq => ?_, fun host args w m => ?_⟩
    · rw [← (horigin b hb).2, ← (horigin c hc).2, heq]
    · have hlockstep : Lockstep ((body.routine.Step host args).viewing some)
          ((body.removeUnreachable.routine.Step host args).viewing some)
            (Compacted.Related body f) :=
        (hcompacted.lockstep hsound).viewing
      have hpassing := Lockstep.passing id (relocated origin)
        (R := Compacted.Related body f 0) hlockstep
        (by
          rintro _ _ (⟨rfl, rfl⟩ | ⟨d, j, w, m, hd, rfl, rfl⟩)
          · rfl
          · simp [relocated, hback d hd])
      exact hpassing.sameBehaviour (n := 0)
        (.inr ⟨0, 0, w, m, hzero, rfl, by rw [hcompacted.entry]⟩)

/-! ## The pass -/

def found (body : Body) : List (BlockId × Simplification) :=
  body.blockIds.filterMap fun b =>
    ((body.block b).terminator?.bind (simplify? body body.constants body.definitions)).map
      fun s => (b, s)

def simplified (body : Body) :
    Body := (found body).foldl (fun body e => (apply body e.1 e.2).1) body

theorem body_run (method : MethodId) (body : Body) : ∃ drops : Bool,
    (drops = false → ∀ e ∈ found body, ∃ op, e.2 = .branch op) ∧
      (run method body).body = if drops then (simplified body).removeUnreachable
        else simplified body := by
  have hfold : ∀ (next : Body × List Event → BlockId × Simplification → Body × List Event)
      (_ : ∀ a e, (next a e).1 = (apply a.1 e.1 e.2).1) (es : List (BlockId × Simplification))
        (a : Body × List Event),
      (es.foldl next a).1 = es.foldl (fun body e => (apply body e.1 e.2).1) a.1 := by
    intro next hnext es
    induction es with
    | nil => exact fun _ => rfl
    | cons e es ih => exact fun a => by rw [List.foldl_cons, ih, hnext, List.foldl_cons]
  have hif : ∀ (drops : Bool) (folded : Body), folded = simplified body →
      (if drops then folded.removeUnreachable else folded) =
      if drops then (simplified body).removeUnreachable else simplified body := by
    rintro drops _ rfl
    rfl
  refine ⟨_, fun hnone e he => ?_, hif _ _ (hfold _ (fun _ _ => rfl) (found body) (body, []))⟩
  have hbranch := List.any_eq_false.1 hnone e he
  obtain ⟨b, s⟩ := e
  cases s with
  | jump target => exact absurd rfl hbranch
  | branch op => exact ⟨op, rfl⟩

/-- A zero on the left of a comparison, and a test of a new object for null that cuts off a
block. -/
def testedObject : Body where
  method := ⟨⟨"p.A"⟩, "f", ⟨.int, [.int]⟩⟩
  blocks := #[
    { ops := [.argument 0 0, .const 1 (.int 0), .branch .lt 1 (some 0) 1 3] },
    { ops := [.newInstance 2 ⟨"p.A"⟩, .branch .eq 2 none 2 4], preds := [0] },
    { ops := [.goto 3], preds := [1] },
    { phis := [⟨3, [1, 0]⟩], ops := [.ret (some 3)], preds := [0, 2] },
    { ops := [.ret (some 0)], preds := [1] }]
  values := #[.int, .int, .reference, .int]

def identityHost : Host Int Unit where
  performs _ action _ outcome _ :=
    match action with
    | .const c => outcome = .completes (c.number?.getD 1)
    | .newInstance _ | .newArray _ | .filledNewArray _ => outcome = .completes 1
    | _ => True
  holds cond left right := cond.holds left (right.elim 0 id)
  isKey value key := decide (value = key)
  isInstance _ _ := true

theorem number_of_isZero {c : Constant} (hc : c.isZero = true) : id (c.number?.getD 1) = 0 := by
  cases c with
  | int n => rw [beq_iff_eq.1 hc]; rfl
  | long n => rw [beq_iff_eq.1 hc]; rfl
  | null => rfl
  | _ => cases hc

theorem compares_identityHost : identityHost.Compares id fun c => c.number?.getD 1 where
  holds := fun _ _ _ => rfl
  zero := fun hc => ⟨fun w outcome w' => (and_iff_left rfl).symm, number_of_isZero hc⟩
  fresh := fun {action w w' values value} halloc hperforms => by
    cases action <;> cases halloc <;> cases hperforms <;> exact Int.one_ne_zero

/-- The handler of an allocation tests for null what has not been allocated. -/
def caughtAllocation : Body where
  method := ⟨⟨"p.A"⟩, "f", ⟨.void, []⟩⟩
  blocks := #[
    { ops := [.newInstance 0 ⟨"p.A"⟩, .goto 1], handlers := [⟨none, 2⟩] },
    { ops := [.ret none], preds := [0, 2] },
    { ops := [.branch .eq 0 none 1 3], preds := [0] },
    { ops := [.const 1 (.int 0), .ret none], preds := [2] }]
  values := #[.reference, .int]

/-- There is no room for objects. -/
def exhaustedHost : Host Int Unit :=
  { identityHost with
    performs := fun _ action _ outcome _ =>
      match action with
      | .const c => outcome = .completes (c.number?.getD 1)
      | _ => outcome = .raises 1 }

theorem compares_exhaustedHost : exhaustedHost.Compares id fun c => c.number?.getD 1 where
  holds := fun _ _ _ => rfl
  zero := fun hc => ⟨fun w outcome w' => (and_iff_left rfl).symm, number_of_isZero hc⟩
  fresh := fun {action w w' values value} halloc hperforms => by
    cases action <;> cases halloc <;> cases hperforms

/-- What the pass makes of it. -/
def untestedAllocation : Body where
  method := ⟨⟨"p.A"⟩, "f", ⟨.void, []⟩⟩
  blocks := #[
    { ops := [.newInstance 0 ⟨"p.A"⟩, .goto 1], handlers := [⟨none, 2⟩] },
    { ops := [.ret none], preds := [0] },
    { ops := [.goto 3], preds := [0] },
    { ops := [.const 1 (.int 0), .ret none], preds := [2] }]
  values := #[.reference, .int]

/-- Before the test there are two steps, and after it one. -/
theorem not_run_caughtAllocation {p₀ p₁ p₂ p₃ : Option (Config (BlockId × Nat) Int Unit)}
    {a : Option (Config (BlockId × Nat) Int Unit)} :
    ¬ Run ((caughtAllocation.routine.Step exhaustedHost fun _ => 0).passing id)
      (some ⟨(0, 0), (), ⟨fun _ => 0, 0, 0⟩⟩) [p₀, p₁, p₂, p₃] a := by
  intro hrun
  obtain ⟨_, _, hfirst, hrun⟩ := hrun.of_passing
  obtain ⟨_, _, hsecond, hrun⟩ := hrun.of_passing
  obtain ⟨_, _, hthird, hrun⟩ := hrun.of_passing
  obtain ⟨_, _, hfourth, -⟩ := hrun.of_passing
  -- the allocation raises an exception
  rcases hfirst with ⟨he, h⟩ | ⟨he, h⟩ | ⟨he, h, hfind⟩ | ⟨he, h, hfind⟩ |
    ⟨he, h⟩ <;> cases Option.some.inj he <;> cases h
  · rename_i hperforms
    cases hperforms
  · cases Option.some.inj hfind
    -- the value is null
    rcases hsecond with ⟨he, h⟩ | ⟨he, h⟩ | ⟨he, h, -⟩ | ⟨he, h, -⟩ |
      ⟨he, h⟩ <;> cases Option.some.inj he <;> cases h
    rename_i htaken
    cases htaken
    rcases hthird with ⟨he, h⟩ | ⟨he, h⟩ | ⟨he, h, -⟩ | ⟨he, h, -⟩ |
      ⟨he, h⟩ <;> cases Option.some.inj he <;> cases h
    cases hfourth
  · cases hfind

/-- It runs four operations where the host has no room: the test is decided the other way. -/
theorem exists_run_untestedAllocation
    (place : Option (Config (BlockId × Nat) Int Unit) → Option (Config (BlockId × Nat) Int Unit)) :
    ∃ p₀ p₁ p₂ p₃ b, Run ((untestedAllocation.routine.Step exhaustedHost fun _ => 0).passing place)
      (some ⟨(0, 0), (), ⟨fun _ => 0, 0, 0⟩⟩) [p₀, p₁, p₂, p₃] b := by
  let r := untestedAllocation.routine
  have hraise : ∃ seen m, r.Step exhaustedHost (fun _ => 0) (some ⟨(0, 0), (), ⟨fun _ => 0, 0, 0⟩⟩)
      seen (some ⟨(2, 0), (), m⟩) :=
    ⟨_, _, .caught (e := .act (.newInstance ⟨"p.A"⟩) [] (some 0)) (h := ⟨none, 2⟩) rfl
      (.raises rfl rfl) rfl⟩
  have hjump : ∀ m, ∃ seen m', r.Step exhaustedHost (fun _ => 0) (some ⟨(2, 0), (), m⟩) seen
      (some ⟨(3, 0), (), m'⟩) :=
    fun _ => ⟨_, _, .jump (e := .goto 3) rfl .goto⟩
  have hload : ∀ m, ∃ seen m', r.Step exhaustedHost (fun _ => 0) (some ⟨(3, 0), (), m⟩) seen
      (some ⟨(3, 1), (), m'⟩) :=
    fun _ =>
      ⟨_, _, .next (e := .act (.const (.int 0)) [] (some 1)) rfl (.completes (by decide) rfl)⟩
  have hret : ∀ m, ∃ seen, r.Step exhaustedHost (fun _ => 0) (some ⟨(3, 1), (), m⟩) seen none :=
    fun _ => ⟨_, .halt (e := .ret none) rfl .ret⟩
  obtain ⟨_, m₁, hraise⟩ := hraise
  obtain ⟨_, m₂, hjump⟩ := hjump m₁
  obtain ⟨_, m₃, hload⟩ := hload m₂
  obtain ⟨_, hret⟩ := hret m₃
  exact ⟨_, _, _, _, _, .passing_head hraise
    (.passing_head hjump (.passing_head hload (.passing_head hret (.refl _))))⟩

end Pass.Branches

end BytecodeOpt
