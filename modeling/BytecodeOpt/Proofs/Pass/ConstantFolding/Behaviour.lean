import BytecodeOpt.Proofs.Pass.ConstantFolding.Edits

/-!
# Exchanges as seen from outside

On a host that gives each constant one value, a value loaded from a constant has it wherever its
load dominates.  Operations may be exchanged that are alike whenever this holds, and nobody sees it.
-/

namespace BytecodeOpt

open Execution

variable {V W : Type}

/-- An action on these values can only complete with this one, and leaves the world as it is. -/
def Execution.Host.Gives (host : Host V W) (action : Action) (operands : List V) (value : V) :
    Prop :=
  ∀ w outcome w', host.performs w action operands outcome w' ↔ outcome = .completes value ∧ w' = w

namespace Pass.ConstantFolding

open Ssa Ssa.Body

variable {body body' : Body} {b t : BlockId} {k : Nat} {v dest : Operand} {c : Constant} {op : Op}
  {host : Host V W} {args : Nat → V} {constant : Constant → V} {m : Memory V}

/-! ## What is seen -/

inductive Sight (V : Type) where
  | computes (value : V)
  | shows (o : Observation V)

/-- Of constants and arithmetic the values are seen, and of branches nothing. -/
def sight : Observation V → Option (Sight V)
  | .performed (.const _) _ (.completes value) => some (.computes value)
  | .performed (.binary _ _) _ (.completes value) => some (.computes value)
  | .performed (.unary _) _ (.completes value) => some (.computes value)
  | .branched .. | .switched .. => none
  | o => some (.shows o)

/-- All that an effect can do. -/
def OnlyDoes (host : Host V W) (args : Nat → V) (m : Memory V) (e : Effect) (exit : Exit V)
    (shown : List (Sight V)) : Prop :=
  ∀ w w' exit' shown',
    (∃ seen, e.Runs host args w m seen w' exit' ∧ seen.filterMap sight = shown') ↔
    w' = w ∧ exit' = exit ∧ shown' = shown

theorem OnlyDoes.alike {e e' : Effect} {exit : Exit V} {shown : List (Sight V)}
    (h : OnlyDoes host args m e exit shown)
    (h' : OnlyDoes host args m e' exit shown) : Exchanged.Alike host args sight m e e' :=
  fun w w' exit' shown' => (h w w' exit' shown').trans (h' w w' exit' shown').symm

theorem onlyDoes_goto (target : BlockId) :
    OnlyDoes host args m (.goto target) (.jump target) [] := by
  intro w w' exit shown
  constructor
  · rintro ⟨seen, hrun, rfl⟩
    cases hrun
    exact ⟨rfl, rfl, rfl⟩
  · rintro ⟨rfl, rfl, rfl⟩
    exact ⟨_, .goto, rfl⟩

theorem onlyDoes_branch {cond : Condition} {left : Operand} {right : Option Operand}
    {onTrue onFalse : BlockId} {taken : Bool}
    (h : host.holds cond (m.store left) (right.map m.store) = taken) :
    OnlyDoes host args m (.branch cond left right onTrue onFalse)
      (.jump (if taken then onTrue else onFalse)) [] := by
  intro w w' exit shown
  constructor
  · rintro ⟨seen, hrun, rfl⟩
    cases hrun with
    | branch htaken => exact ⟨rfl, by rw [htaken, h], rfl⟩
  · rintro ⟨rfl, rfl, rfl⟩
    exact ⟨_, .branch h.symm, rfl⟩

/-! ## Constants along a run -/

section

variable {known : Constant → Prop}

/-- The operation at a place loads a constant, and the memory has it. -/
def Loaded (body : Body) (known : Constant → Prop) (constant : Constant → V) (d : BlockId) (j : Nat)
    (store : Operand → V) : Prop :=
  ∀ (v : Operand) (c : Constant), (body.block d).ops[j]? = some (.const v c) → known c →
    store v = constant c

theorem lasting_loaded (hknown : ∀ c, known c → c.isType = false) :
    body.Lasting (Loaded body known constant) where
  congr := fun _ hsame h v c hop hc => by
    rw [← hsame v (dominated_of_op hop rfl)]
    exact h v c hop hc
  quiet := fun hthrow v c hop hc => by
    have := hthrow _ v hop rfl
    rw [Op.canThrow, hknown c hc] at this
    cases this

theorem Tidy.store_eq_of_settled (ht : Tidy body) {store : Operand → V}
    (h : body.Settled (Loaded body known constant) b k store) (hv : body.Dominated b k v)
    (hc : IsConst body v c) (hknown : known c) : store v = constant c := by
  obtain ⟨d, j, hsite, hj⟩ := hc.definedAt
  obtain ⟨other, hother, hbefore⟩ := hv
  obtain rfl := ht.site_unique v _ _ hsite hother
  exact h d j hbefore v c hj hknown

theorem settled_next (hs : body.Sound) (hknown : ∀ c, known c → c.isType = false)
    (hgives : ∀ c, known c → host.Gives (.const c) [] (constant c)) {w w' : W}
    {seen : List (Observation V)}
    {value : Option V} (hb : body.Reached b) (hop : (body.block b).ops[k]? = some op)
    (h : body.Settled (Loaded body known constant) b k m.store)
    (hrun : op.effect.Runs host args w m seen w' (.next value)) :
    body.Settled (Loaded body known constant) b (k + 1) (m.after op.effect value).store := by
  refine h.next hs (lasting_loaded hknown) hb hop (fun v c hconst hc => ?_) fun v hv => ?_
  · obtain rfl := Option.some.inj (hop.symm.trans hconst)
    cases hrun with
    | completes _ hperforms =>
      obtain ⟨houtcome, -⟩ := (hgives c hc _ _ _).1 hperforms
      cases houtcome
      exact m.store_after_self rfl _
  · rw [m.store_after_of_ne (by simpa using hv)]

end

/-! ## One edit -/

theorem reached_zero (hb : b < body.blockCount) : body.Reached 0 :=
  .refl (by rw [size_graph]; exact Nat.zero_lt_of_lt hb) trivial

theorem alike_refl (e : Effect) : Exchanged.Alike host args sight m e e := fun _ _ _ _ => Iff.rfl

section

variable {ε : Type} {view : Observation V → Option ε} {known : Constant → Prop}
  {h : BlockId → Op → Op}
  (ht : Tidy body) (hknown : ∀ c, known c → c.isType = false)
  (hgives : ∀ c, known c → host.Gives (.const c) [] (constant c)) (hex : Exchanged body body' h)
include ht hknown hgives hex

/-- Exchanging operations is not seen, if they are alike wherever the constants are what they are.
Of the memory something else may be known all the way. -/
theorem Tidy.lockstep (always : (Operand → V) → Prop)
    (henter : ∀ b t s, always s → always fun v => s (body.picks b t v))
    (hnext : ∀ (b : BlockId) (k : Nat) (op : Op) (w w' : W) (seen : List (Observation V))
      (m : Memory V) (value : Option V),
      (body.block b).ops[k]? = some op → always m.store → op.effect.Runs host args w m seen w'
        (.next value) →
      always (m.after op.effect value).store)
    (halike : ∀ (d : BlockId) (j : Nat) (other : Op) (m : Memory V), body.Reached d →
      (body.block d).ops[j]? = some other →
      always m.store → (∀ v, body.Dominated d j v → ∀ c, IsConst body v c → known c →
        m.store v = constant c) →
      Exchanged.Alike host args view m other.effect (h d other).effect) :
    Lockstep ((body.routine.Step host args).viewing view)
      ((body'.routine.Step host args).viewing view)
      (Exchanged.Related body' fun b k s => body.Settled (Loaded body known constant) b k
        s ∧ always s) :=
  hex.lockstep ht.sound
    (fun b _ t s hb hleaves hs => ⟨hs.1.enter ht.sound (lasting_loaded hknown) hb hleaves,
      henter b t s hs.2⟩)
    (fun b k op w w' seen m value hb hop hs hrun =>
      ⟨settled_next ht.sound hknown hgives hb hop hs.1 hrun,
        hnext b k op w w' seen m value hop hs.2 hrun⟩)
    fun d j other m hd hop hs => halike d j other m hd hop hs.2 fun _ hv _ hc hk =>
      ht.store_eq_of_settled hs.1 hv hc hk

end

end Pass.ConstantFolding

end BytecodeOpt
