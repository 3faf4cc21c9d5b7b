import BytecodeOpt.Proofs.Execution.Correspondence
import BytecodeOpt.RegisterCode.Lowering

/-!
# Running register code

Blocks over registers run on the machine that runs code.  Arguments are in their registers from the
start, so an operation that names one does nothing.

A null check has no instruction of its own.  On a host where it does what a call of `getClass` does,
a run can be seen as one in which every null check is such a call.
-/

namespace BytecodeOpt

namespace Execution

variable {V W L : Type} {host : Host V W} {w w' : W} {l : L}

/-! ## Effects on other operands -/

def Effect.mapOperands (f : Nat → Nat) : Effect → Effect
  | .argument dest index => .argument (f dest) index
  | .copy dest source => .copy (f dest) (f source)
  | .result dest => .result (f dest)
  | .caught dest => .caught (f dest)
  | .act action operands dest => .act action (operands.map f) (dest.map f)
  | .branch cond left right onTrue onFalse => .branch cond (f left) (right.map f) onTrue onFalse
  | .switch value keys targets default => .switch (f value) keys targets default
  | .ret value => .ret (value.map f)
  | other => other

/-! ## What may still be read -/

/-- From here on the content of an operand may be read before something else is written there.  An
operation that throws has not written its result. -/
inductive Routine.Live (p : Routine L) : Nat → L → Prop where
  | read {l : L} {e : Effect} {v : Nat} : p.effect? l = some e → v ∈ e.operands → Live p v l
  | pass {l : L} {e : Effect} {v : Nat} : p.effect? l = some e → e.leaves = false →
      e.dest? ≠ some v → Live p v (p.next l) → Live p v l
  | jump {l : L} {e : Effect} {t v : Nat} : p.effect? l = some e → t ∈ e.targets →
      Live p v (p.target l t) → Live p (p.source l t v) l
  | throws {l : L} {e : Effect} {h : Handler} {v : Nat} : p.effect? l = some e → e.canThrow = true →
      h ∈ p.handlers l → Live p v (p.target l h.target) → Live p (p.source l h.target v) l

/-- What an effect overwrites need not be kept for it. -/
theorem Routine.not_live_of_written {p : Routine L} {e : Effect} {v : Nat}
    (he : p.effect? l = some e)
    (hdest : e.dest? = some v) (hreads : v ∉ e.operands) (htargets : e.targets = [])
    (hthrow : e.canThrow = false) :
    ¬ p.Live v l := by
  have heq : ∀ {e' : Effect}, p.effect? l = some e' → e' = e := fun h =>
    Option.some.inj (h.symm.trans he)
  rintro (⟨he', hread⟩ | ⟨he', -, hpass, -⟩ | ⟨he', ht, -⟩ | ⟨he', hthrows, -⟩)
  · exact hreads (heq he' ▸ hread)
  · exact hpass (heq he' ▸ hdest)
  · grind
  · grind

/-! ## Null checks as calls -/

def Action.asCall : Action → Action
  | .nullCheck => .invoke .virtual RegisterCode.getClass
  | other => other

def Effect.asCall : Effect → Effect
  | .act action operands dest => .act action.asCall operands dest
  | other => other

def Observation.asCall : Observation V → Observation V
  | .performed action args outcome => .performed action.asCall args outcome
  | other => other

/-- A null check does what a call of `getClass` does; nobody reads what either gives back. -/
def Host.ChecksByCall (host : Host V W) : Prop :=
  ∀ w values outcome w', host.performs w .nullCheck values outcome w' ↔
    host.performs w (.invoke .virtual RegisterCode.getClass) values outcome w'

def Routine.asCalls (p : Routine L) : Routine L where
  effect? l := (p.effect? l).map Effect.asCall
  handlers := p.handlers
  next := p.next
  target := p.target
  source := p.source

@[simp] theorem Action.asCall_eq_throw {action : Action} :
    action.asCall = .throw ↔ action = .throw := by
  cases action <;> simp [asCall]

@[simp] theorem Action.canThrow_asCall (action : Action) :
    action.asCall.canThrow = action.canThrow := by
  cases action <;> rfl

namespace Effect

@[simp] theorem operands_asCall (e : Effect) : e.asCall.operands = e.operands := by
  cases e <;> rfl

@[simp] theorem dest?_asCall (e : Effect) : e.asCall.dest? = e.dest? := by
  cases e <;> rfl

@[simp] theorem targets_asCall (e : Effect) : e.asCall.targets = e.targets := by
  cases e <;> rfl

@[simp] theorem leaves_asCall (e : Effect) : e.asCall.leaves = e.leaves := by
  cases e with
  | act action _ _ => cases action <;> rfl
  | _ => rfl

@[simp] theorem canThrow_asCall (e : Effect) : e.asCall.canThrow = e.canThrow := by
  cases e with
  | act action _ _ => exact action.canThrow_asCall
  | _ => rfl

end Effect

theorem Host.ChecksByCall.performs_asCall (h : host.ChecksByCall) {action : Action}
    {values : List V} {outcome : Outcome V} :
    host.performs w action.asCall values outcome w' ↔ host.performs w action values outcome w' := by
  cases action with
  | nullCheck => exact (h w values outcome w').symm
  | _ => rfl

theorem Effect.runs_asCall (h : host.ChecksByCall) {args : Nat → V} {m : Memory V} {e : Effect}
    {seen : List (Observation V)} {exit : Exit V} :
    e.asCall.Runs host args w m seen w' exit ↔
      ∃ seen', e.Runs host args w m seen' w' exit ∧ seen = seen'.map Observation.asCall := by
  constructor
  · intro hrun
    cases e with
    | act action operands dest =>
      cases hrun with
      | completes hne hperforms =>
        exact ⟨_, .completes (by simpa using hne) (h.performs_asCall.1 hperforms), rfl⟩
      | raises hthrow hperforms =>
        exact ⟨_, .raises (by simpa using hthrow) (h.performs_asCall.1 hperforms), rfl⟩
    | _ => exact ⟨seen, hrun, by cases hrun; rfl⟩
  · rintro ⟨seen', hrun, rfl⟩
    cases hrun with
    | completes hne hperforms =>
      exact .completes (by simpa using hne) (h.performs_asCall.2 hperforms)
    | raises hthrow hperforms =>
      exact .raises (by simpa using hthrow) (h.performs_asCall.2 hperforms)
    | _ => constructor <;> assumption

theorem Memory.after_asCall (m : Memory V) (e : Effect) (value : Option V) :
    m.after e.asCall value = m.after e value := by
  cases value with
  | none => rfl
  | some value => simp only [after, Effect.dest?_asCall]

theorem Routine.runs_of_asCalls (h : host.ChecksByCall) (p : Routine L) {args : Nat → V}
    {m : Memory V} {e' : Effect}
    {seen : List (Observation V)} {exit : Exit V} (he : p.asCalls.effect? l = some e')
    (hrun : e'.Runs host args w m seen w' exit) :
    ∃ e seen', p.effect? l = some e ∧ e' = e.asCall ∧ e.Runs host args w m seen' w' exit ∧
      seen = seen'.map Observation.asCall := by
  obtain ⟨e, he', rfl⟩ := Option.map_eq_some_iff.1 he
  obtain ⟨seen', hrun', hseen⟩ := (Effect.runs_asCall h).1 hrun
  exact ⟨e, seen', he', rfl, hrun', hseen⟩

theorem Routine.step_asCalls (h : host.ChecksByCall) (p : Routine L) (args : Nat → V) :
    (p.Step host args).through Observation.asCall = p.asCalls.Step host args := by
  funext a seen b
  refine propext ⟨?_, fun hstep => ?_⟩
  · rintro ⟨seen, hstep, rfl⟩
    have heffect : ∀ {l : L} {e : Effect}, p.effect? l = some e →
        p.asCalls.effect? l = some e.asCall := fun he => congrArg (Option.map Effect.asCall) he
    cases hstep with
    | next he hrun =>
      rw [← Memory.after_asCall]
      exact .next (heffect he) ((Effect.runs_asCall h).2 ⟨_, hrun, rfl⟩)
    | jump he hrun => exact .jump (heffect he) ((Effect.runs_asCall h).2 ⟨_, hrun, rfl⟩)
    | caught he hrun hfind =>
      rw [List.map_append]
      exact .caught (heffect he) ((Effect.runs_asCall h).2 ⟨_, hrun, rfl⟩) hfind
    | escaped he hrun hfind =>
      rw [List.map_append]
      exact .escaped (heffect he) ((Effect.runs_asCall h).2 ⟨_, hrun, rfl⟩) hfind
    | halt he hrun => exact .halt (heffect he) ((Effect.runs_asCall h).2 ⟨_, hrun, rfl⟩)
  · cases hstep with
    | next he hrun =>
      obtain ⟨e, seen', he', rfl, hrun', rfl⟩ := p.runs_of_asCalls h he hrun
      rw [Memory.after_asCall]
      exact ⟨_, .next he' hrun', rfl⟩
    | jump he hrun =>
      obtain ⟨e, seen', he', rfl, hrun', rfl⟩ := p.runs_of_asCalls h he hrun
      exact ⟨_, .jump he' hrun', rfl⟩
    | caught he hrun hfind =>
      obtain ⟨e, seen', he', rfl, hrun', rfl⟩ := p.runs_of_asCalls h he hrun
      exact ⟨_, .caught he' hrun' hfind, by simp [Observation.asCall]⟩
    | escaped he hrun hfind =>
      obtain ⟨e, seen', he', rfl, hrun', rfl⟩ := p.runs_of_asCalls h he hrun
      exact ⟨_, .escaped he' hrun' hfind, by simp [Observation.asCall]⟩
    | halt he hrun =>
      obtain ⟨e, seen', he', rfl, hrun', rfl⟩ := p.runs_of_asCalls h he hrun
      exact ⟨_, .halt he' hrun', rfl⟩

theorem Routine.live_of_asCalls {p : Routine L} {v : Nat} (h : p.asCalls.Live v l) :
    p.Live v l := by
  induction h with
  | read he hv =>
    obtain ⟨e, he', rfl⟩ := Option.map_eq_some_iff.1 he
    exact .read he' (by simpa using hv)
  | pass he hleaves hdest _ ih =>
    obtain ⟨e, he', rfl⟩ := Option.map_eq_some_iff.1 he
    exact .pass he' (by simpa using hleaves) (by simpa using hdest) ih
  | jump he ht _ ih =>
    obtain ⟨e, he', rfl⟩ := Option.map_eq_some_iff.1 he
    exact .jump he' (by simpa using ht) ih
  | throws he hthrow hh _ ih =>
    obtain ⟨e, he', rfl⟩ := Option.map_eq_some_iff.1 he
    exact .throws he' (by simpa using hthrow) hh ih

/-- An operation with what is in memory when it starts and what is seen of it. -/
structure Executed (V : Type) where
  op : Op
  memory : Memory V
  seen : List (Observation V)

end Execution

open Execution

/-! ## Register code as a routine -/

def Op.registerEffect : Op → Effect
  | .argument .. => .skip
  | op => op.effect.mapOperands RegisterCode.register

namespace Op

@[simp] theorem leaves_registerEffect (op : Op) : op.registerEffect.leaves = op.isTerminator := by
  cases op <;> rfl

@[simp] theorem targets_registerEffect (op : Op) : op.registerEffect.targets = op.targets := by
  cases op <;> rfl

end Op

namespace RegisterCode

def block? (code : RegisterCode) (b : BlockId) : Option RegisterBlock :=
  code.blocks.find? (·.id = b)

def entry (code : RegisterCode) : BlockId := (code.blocks.head?.map RegisterBlock.id).getD 0

def routine (code : RegisterCode) : Routine (BlockId × Nat) where
  effect? l := ((code.block? l.1).bind (·.ops[l.2]?)).map Op.registerEffect
  handlers l := ((code.block? l.1).map RegisterBlock.handlers).getD []
  next l := (l.1, l.2 + 1)
  target _ b := (b, 0)
  source _ _ reg := reg

/-- Every block ends in its only terminator, and what blocks lead to is there. -/
structure WellFormed (code : RegisterCode) : Prop where
  nodup : (code.blocks.map RegisterBlock.id).Nodup
  terminated : ∀ b ∈ code.blocks, ∃ before last, b.ops = before ++ [last] ∧
    last.isTerminator = true ∧ ∀ op ∈ before, op.isTerminator = false
  targets : ∀ b ∈ code.blocks, ∀ op ∈ b.ops, ∀ t ∈ op.targets, t ∈ code.blocks.map RegisterBlock.id
  handlers : ∀ b ∈ code.blocks, ∀ h ∈ b.handlers, h.target ∈ code.blocks.map RegisterBlock.id

/-- No handler of a block reads the register that a cast of the block was to write, unless the cast
is in place. -/
def CastsUnread (code : RegisterCode) : Prop :=
  ∀ b ∈ code.blocks, ∀ dest value type, Op.checkCast dest value type ∈ b.ops →
    register dest ≠ register value → ∀ h ∈ b.handlers,
      ¬ code.routine.Live (register dest) (h.target, 0)

theorem find?_id_eq_some {blocks : List RegisterBlock}
    (hnodup : (blocks.map RegisterBlock.id).Nodup) {b : RegisterBlock}
    (hb : b ∈ blocks) : blocks.find? (·.id = b.id) = some b := by
  obtain ⟨c, hc⟩ : ∃ c, blocks.find? (·.id = b.id) = some c :=
    Option.isSome_iff_exists.1 (List.find?_isSome.2 ⟨b, hb, by simp⟩)
  rw [hc, List.inj_on_of_nodup_map hnodup (List.mem_of_find?_eq_some hc) hb
    (by simpa using List.find?_some hc)]

theorem WellFormed.block?_eq_some {code : RegisterCode} {b : RegisterBlock} (h : code.WellFormed)
    (hb : b ∈ code.blocks) :
    code.block? b.id = some b :=
  find?_id_eq_some h.nodup hb

end RegisterCode

end BytecodeOpt
