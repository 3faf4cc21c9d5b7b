import BytecodeOpt.Pass.Inlining
import BytecodeOpt.Proofs.Ssa.Expansion

/-!
# Receivers that are not null

A call checks its receiver.  Where the receiver was just created, or is the object that the method
itself was called on, the check passes: a run that makes it and one that does not are the same but
for the check.
-/

namespace BytecodeOpt

namespace Execution

variable {V W : Type}

/-- What a host does with null: its check does nothing where there is none, and no new object is
null. -/
structure Host.ChecksNull (host : Host V W) (isNull : V → Prop) : Prop where
  passes : ∀ w x, ¬ isNull x → ∃ y, host.performs w .nullCheck [x] (.completes y) w
  only : ∀ w x outcome w', ¬ isNull x → host.performs w .nullCheck [x] outcome w' → w' = w ∧
    ∃ y, outcome = .completes y
  creates : ∀ w type x w', host.performs w (.newInstance type) [] (.completes x) w' → ¬ isNull x

def Observation.isEffect : Observation V → Bool
  | .line _ => false
  | .performed .nullCheck _ (.completes _) => false
  | _ => true

namespace Host.ChecksNull

variable {K : Type} {host : Host V W} {isNull : V → Prop} (h : host.ChecksNull isNull)
  {callee : Callee K}
  {w w' : W} {x : V} {values : List V} {seen : List (Observation V)} {raised : Option V}
include h

theorem of_greets (hx : ¬ isNull x)
    (hgreets : Greets host w (callee.checked (x :: values)) seen w' raised) :
    w' = w ∧ raised = none ∧ seen.filter Observation.isEffect = [] := by
  rw [Callee.checked] at hgreets
  split at hgreets
  · cases hgreets with
    | passes hperforms => exact ⟨(h.only _ _ _ _ hx hperforms).1, rfl, rfl⟩
    | refuses hperforms =>
      obtain ⟨-, y, hy⟩ := h.only _ _ _ _ hx hperforms
      cases hy
  · cases hgreets
    exact ⟨rfl, rfl, rfl⟩

theorem exists_greets (callee : Callee K) (w : W) (hx : ¬ isNull x) (values : List V) :
    ∃ seen, Greets host w (callee.checked (x :: values)) seen w none ∧
      seen.filter Observation.isEffect = [] := by
  rw [Callee.checked]
  split
  · obtain ⟨y, hy⟩ := h.passes w x hx
    exact ⟨_, .passes hy, rfl⟩
  · exact ⟨_, .unchecked, rfl⟩

end Host.ChecksNull

end Execution

namespace Ssa.Body

open Execution

variable {V W K : Type} {body : Body} {isInstance : Bool} {isNull : V → Prop} {v : Operand}
  {l : BlockId × Nat} {m : Memory V}

structure NeverNull (body : Body) (isInstance : Bool) (v : Operand) : Prop where
  not_phi : ∀ t, v ∉ (body.block t).phiDests
  defined : ∀ (c : BlockId) (k : Nat) (op : Op), (body.block c).ops[k]? = some op →
    op.dest? = some v →
    (∃ type, op = .newInstance v type) ∨ (isInstance = true ∧ op = .argument v 0)

def NoNull (body : Body) (isInstance : Bool) (isNull : V → Prop) (m : Memory V) : Prop :=
  ∀ v, body.NeverNull isInstance v → ¬ isNull (m.store v)

theorem NoNull.enter (h : body.NoNull isInstance isNull m) (l : BlockId × Nat) (t : BlockId)
    (w : W) (x : V) :
    body.NoNull isInstance isNull (body.routine.enter l t w { m with caught := x }).memory := by
  intro v hv
  change ¬ isNull (m.store (body.picks l.1 t v))
  rw [picks_of_not_phi (hv.not_phi t)]
  exact h v hv

theorem exists_op_of_effect? {e : Effect} (h : body.routine.effect? l = some e) :
    ∃ op, (body.block l.1).ops[l.2]? = some op ∧ op.effect = e :=
  Option.map_eq_some_iff.1 h

section Steps

variable {host : Host V W} {args : Nat → V} (hhost : host.ChecksNull isNull)
  (hreceiver : isInstance = true → ¬ isNull (args 0))
include hhost hreceiver

theorem NoNull.step {w : W} {seen : List (Observation V)} {c : Config (BlockId × Nat) V W}
    (hm : body.NoNull isInstance isNull m)
    (hstep : body.routine.Step host args (some ⟨l, w, m⟩) seen (some c)) :
    body.NoNull isInstance isNull c.memory := by
  cases hstep with
  | next he hrun =>
    obtain ⟨op, hop, rfl⟩ := exists_op_of_effect? he
    intro v hv
    by_cases hdest : op.effect.dest? = some v
    · rcases hv.defined _ _ op hop (by simpa using hdest) with ⟨type, rfl⟩ | ⟨hinstance, rfl⟩
      · cases hrun with
        | completes _ hperforms =>
          rw [Memory.store_after_self _ hdest]
          exact hhost.creates _ _ _ _ hperforms
      · cases hrun
        rw [Memory.store_after_self _ hdest]
        exact hreceiver hinstance
    · rw [Memory.store_after_of_ne _ hdest]
      exact hm v hv
  | jump he hrun => exact hm.enter l _ _ m.caught
  | caught he hrun hfind => exact hm.enter l _ _ _

end Steps

/-! ## Running calls -/

def CallAt (body : Body) (l : BlockId × Nat) : Prop :=
  ∃ kind method args dest, (body.block l.1).ops[l.2]? = some (.invoke kind method args dest)

/-- Such values hold something in the memory of the caller, also while it waits. -/
def QuietCaller (body : Body) (isInstance : Bool) (isNull : V → Prop) :
    Option (Activity (BlockId × Nat) K V W) → Prop
  | none => True
  | some (.caller c) => body.NoNull isInstance isNull c.memory
  | some (.callee l m _ _ _) => body.NoNull isInstance isNull m ∧ body.CallAt l

theorem NoNull.unwinds {host : Host V W} {w : W} {x : V} {seen : List (Observation V)}
    {c : Option (Config (BlockId × Nat) V W)} (hm : body.NoNull isInstance isNull m)
    (h : body.routine.Unwinds host l w m x seen c) :
    body.QuietCaller (K := K) isInstance isNull (c.map .caller) := by
  cases h with
  | caught _ => exact hm.enter l _ w x
  | escaped _ => trivial

section Calls

variable {calls calls' : BlockId × Nat → Option (Callee K)} {host : Host V W}
  {args : Nat → V} {blank : V}
  {a a' : Option (Activity (BlockId × Nat) K V W)} {seen : List (Observation V)}

theorem QuietCaller.step (hhost : host.ChecksNull isNull)
    (hreceiver : isInstance = true → ¬ isNull (args 0))
    (hcalls : ∀ l, calls l ≠ none → body.CallAt l) (h : body.QuietCaller isInstance isNull a)
    (hstep : body.routine.CallStep calls host args blank a seen a') :
    body.QuietCaller isInstance isNull a' := by
  cases hstep with
  | @own l w m seen c _ hstep =>
    cases c with
    | none => trivial
    | some c => exact NoNull.step hhost hreceiver h hstep
  | call hl _ _ => exact ⟨h, hcalls _ (by simp [hl])⟩
  | refused _ _ _ hunwinds => exact NoNull.unwinds h hunwinds
  | inner _ => exact h
  | returns _ he =>
    obtain ⟨hm, kind, method, given, dest, hop⟩ := h
    obtain ⟨op, hop', rfl⟩ := exists_op_of_effect? he
    obtain rfl := Option.some.inj (hop.symm.trans hop')
    intro v hv
    -- a call neither creates its result nor takes it as an argument
    rw [Memory.store_after_of_ne]
    · exact hm v hv
    · intro hdest
      rcases hv.defined _ _ _ hop hdest with ⟨type, heq⟩ | ⟨-, heq⟩ <;> cases heq
  | throws _ _ _ hunwinds => exact NoNull.unwinds h.1 hunwinds

/-- The calls run the same code, and differ at most in whether they check a receiver that is never
null. -/
def Trusts (body : Body) (isInstance : Bool) (calls calls' : BlockId × Nat → Option (Callee K)) :
    Prop :=
  ∀ l, calls' l = calls l ∨ ∃ callee checks kind method v given dest, calls l = some callee ∧
    calls' l = some { callee with checksReceiver := checks } ∧
    (body.block l.1).ops[l.2]? = some (.invoke kind method (v :: given) dest) ∧
    body.NeverNull isInstance v

theorem Trusts.symm (h : body.Trusts isInstance calls calls') :
    body.Trusts isInstance calls' calls := by
  intro l
  rcases h l with hsame | ⟨callee, checks, kind, method, v, given, dest, hl, hl', hop, hv⟩
  · exact .inl hsame.symm
  · exact .inr ⟨_, callee.checksReceiver, kind, method, v, given, dest, hl', hl, hop, hv⟩

/-- A step with one set of calls is a step with the other, and the same effects are seen. -/
theorem Trusts.step (htrusts : body.Trusts isInstance calls calls') (hhost : host.ChecksNull isNull)
    (h : body.QuietCaller isInstance isNull a)
    (hstep : body.routine.CallStep calls host args blank a seen a') :
    ∃ seen', body.routine.CallStep calls' host args blank a seen' a' ∧
      seen'.filter Observation.isEffect = seen.filter Observation.isEffect := by
  cases hstep with
  | @own l w m seen c hl hstep =>
    refine ⟨_, .own ?_ hstep, rfl⟩
    rcases htrusts l with hsame | ⟨callee, -, -, -, -, -, -, hcall, -⟩
    · rw [hsame, hl]
    · cases hl.symm.trans hcall
  | @call l w w' m seen callee e hl he hgreets =>
    rcases htrusts l with hsame | ⟨_, checks, kind, method, v, given, dest, hcall, hcall', hop, hv⟩
    · exact ⟨_, .call (hsame.trans hl) he hgreets, rfl⟩
    · obtain rfl := Option.some.inj (hl.symm.trans hcall)
      obtain rfl := Option.some.inj ((effect?_routine hop).symm.trans he)
      obtain ⟨rfl, -, hquiet⟩ := hhost.of_greets (h v hv) hgreets
      obtain ⟨seen', hgreets', hquiet'⟩ := hhost.exists_greets
        { callee with checksReceiver := checks } w' (h v hv) (given.map m.store)
      refine ⟨seen', ?_, hquiet'.trans hquiet.symm⟩
      apply Routine.CallStep.call hcall'
      · exact effect?_routine hop
      · exact hgreets'
  | @refused l w w' m seen more callee e x c hl he hgreets hunwinds =>
    rcases htrusts l with hsame | ⟨_, checks, kind, method, v, given, dest, hcall, hcall', hop, hv⟩
    · exact ⟨_, .refused (hsame.trans hl) he hgreets hunwinds, rfl⟩
    · obtain rfl := Option.some.inj (hl.symm.trans hcall)
      obtain rfl := Option.some.inj ((effect?_routine hop).symm.trans he)
      cases (hhost.of_greets (h v hv) hgreets).2.1
  | inner hstep => exact ⟨_, .inner hstep, rfl⟩
  | returns hret he => exact ⟨_, .returns hret he, rfl⟩
  | throws he hrun hfind hunwinds => exact ⟨_, .throws he hrun hfind hunwinds, rfl⟩

theorem Trusts.sameBehaviour (htrusts : body.Trusts isInstance calls calls')
    (hcalls : ∀ l, calls l ≠ none → body.CallAt l) (hhost : host.ChecksNull isNull)
    (hreceiver : isInstance = true → ¬ isNull (args 0)) (h : body.QuietCaller isInstance isNull a) :
    SameBehaviour ((body.routine.CallStep calls host args blank).showing Observation.isEffect)
      ((body.routine.CallStep calls' host args blank).showing Observation.isEffect) a a := by
  have hcalls' : ∀ l, calls' l ≠ none → body.CallAt l := by
    intro l hl
    rcases htrusts l with hsame | ⟨_, _, kind, method, v, given, dest, -, -, hop, -⟩
    · exact hcalls l (hsame ▸ hl)
    · exact ⟨kind, method, _, dest, hop⟩
  have hlockstep : Lockstep
      ((body.routine.CallStep calls host args blank).showing Observation.isEffect)
      ((body.routine.CallStep calls' host args blank).showing Observation.isEffect)
      fun _ x y => x = y ∧ body.QuietCaller isInstance isNull x := by
    rintro n a _ ⟨rfl, ha⟩
    refine .inr (.inr ⟨?_, ?_⟩)
    · rintro _ a' ⟨seen, hstep, rfl⟩
      obtain ⟨seen', hstep', hseen⟩ := htrusts.step hhost ha hstep
      exact ⟨a', 0, ⟨seen', hstep', hseen.symm⟩, rfl, ha.step hhost hreceiver hcalls hstep⟩
    · rintro _ a' ⟨seen, hstep, rfl⟩
      obtain ⟨seen', hstep', hseen⟩ := htrusts.symm.step hhost ha hstep
      exact ⟨a', 0, ⟨seen', hstep', hseen.symm⟩, rfl, ha.step hhost hreceiver hcalls' hstep⟩
  exact hlockstep.sameBehaviour (n := 0) ⟨rfl, h⟩

end Calls

end Ssa.Body

/-! ## What the pass knows -/

namespace Pass.Inlining

open Ssa

theorem neverNull_of_mayBeNull {body : Body} {caller : Method} {v : Operand}
    (hchecked : body.Checked)
    (h : mayBeNull body caller v = false) : body.NeverNull (!caller.flags.isStatic) v := by
  -- the definition that is found is the only one
  have hsite : ∀ {op : Op}, (body.ops.find? fun e => e.2.dest? = some v).map Prod.snd = some op →
      (∀ t, v ∉ (body.block t).phiDests) ∧ ∀ (c : BlockId) (k : Nat) (op' : Op),
        (body.block c).ops[k]? = some op' → op'.dest? = some v → op' = op := by
    intro op hfound
    obtain ⟨⟨b, found⟩, hfind, rfl⟩ := Option.map_eq_some_iff.1 hfound
    have hdest : found.dest? = some v := by simpa using List.find?_some hfind
    obtain ⟨c, hc, hmem⟩ := List.mem_flatMap.1 (List.mem_of_find?_eq_some hfind)
    obtain ⟨op, hop, heq⟩ := List.mem_map.1 hmem
    cases heq
    obtain ⟨i, hi⟩ := List.mem_iff_getElem?.1 hop
    have hat : body.DefinedAt v (.op b i) := ⟨Body.lt_blockCount_of_getElem? hi, found, hi, hdest⟩
    refine ⟨hchecked.not_mem_phiDests_of_site hat, fun c k op' hop' hdest' => ?_⟩
    have hat' : body.DefinedAt v (.op c k) :=
      ⟨Body.lt_blockCount_of_getElem? hop', op', hop', hdest'⟩
    cases hchecked.site_unique hat' hat
    exact Option.some.inj (hop'.symm.trans hi)
  unfold mayBeNull at h
  split at h
  · rename_i hfound
    obtain ⟨hphi, hop⟩ := hsite hfound
    refine ⟨hphi, fun c k op hget hdest => .inr ⟨by simp [h], ?_⟩⟩
    obtain rfl := hop c k op hget hdest
    rw [Option.some.inj hdest]
  · rename_i type hfound
    obtain ⟨hphi, hop⟩ := hsite hfound
    refine ⟨hphi, fun c k op hget hdest => .inl ⟨type, ?_⟩⟩
    obtain rfl := hop c k op hget hdest
    rw [Option.some.inj hdest]
  · cases h

end Pass.Inlining

end BytecodeOpt
