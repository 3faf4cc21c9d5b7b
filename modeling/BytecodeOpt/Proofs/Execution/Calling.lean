import BytecodeOpt.Proofs.Execution.Correspondence

/-!
# Running calls

A call is an action like any other, left to the host, or it runs code that is at hand: the caller
waits while the callee runs on a memory of its own, and goes on with the value that the callee
returns or the exception that escapes from it.
-/

namespace BytecodeOpt.Execution

variable {σ ε V W L L' K : Type} {given : Nat → V} {code : Routine K}

/-! ## Callees -/

structure Callee (L : Type) where
  routine : Routine L
  entry : L
  /-- The call raises an exception of its own if its first operand is null. -/
  checksReceiver : Bool

def Callee.checked (callee : Callee L) (values : List V) : List V :=
  if callee.checksReceiver then values.take 1 else []

/-- The checks a call makes, and the exception if one fails. -/
inductive Greets (host : Host V W) (w : W) :
    List V → List (Observation V) → W → Option V → Prop where
  | unchecked : Greets host w [] [] w none
  | passes {receiver x : V} {w' : W} : host.performs w .nullCheck [receiver] (.completes x) w' →
      Greets host w [receiver] [.performed .nullCheck [receiver] (.completes x)] w' none
  | refuses {receiver x : V} {w' : W} : host.performs w .nullCheck [receiver] (.raises x) w' →
      Greets host w [receiver] [.performed .nullCheck [receiver] (.raises x)] w' (some x)

/-- The arguments a callee gets; where there is none it finds something blank. -/
def passed (blank : V) (values : List V) (index : Nat) : V := values.getD index blank

def Memory.fresh (blank : V) (values : List V) : Memory V := ⟨passed blank values, blank, blank⟩

inductive Activity (L K V W : Type) where
  | caller (c : Config L V W)
  | callee (place : L) (memory : Memory V) (code : Routine K) (args : Nat → V) (c : Config K V W)

/-- An exception is raised at a place: the first handler that accepts it is entered, or the run
ends. -/
inductive Routine.Unwinds (p : Routine L) (host : Host V W) (l : L) (w : W) (m : Memory V) (x : V) :
    List (Observation V) → Option (Config L V W) → Prop where
  | caught {h : Handler} : (p.handlers l).find? (host.accepts x) = some h →
      Unwinds p host l w m x [.caught h.guard x]
        (some (p.enter l h.target w { m with caught := x }))
  | escaped : (p.handlers l).find? (host.accepts x) = none →
      Unwinds p host l w m x [.escaped x] none

inductive Routine.CallStep (p : Routine L) (calls : L → Option (Callee K)) (host : Host V W)
    (args : Nat → V) (blank : V) : System (Option (Activity L K V W)) (Observation V) where
  | own {l : L} {w : W} {m : Memory V} {seen : List (Observation V)} {c : Option (Config L V W)} :
      calls l = none → p.Step host args (some ⟨l, w, m⟩) seen c →
      CallStep p calls host args blank (some (.caller ⟨l, w, m⟩)) seen (c.map .caller)
  | call {l : L} {w w' : W} {m : Memory V} {seen : List (Observation V)} {callee : Callee K}
      {e : Effect} :
      calls l = some callee → p.effect? l = some e →
      Greets host w (callee.checked (e.operands.map m.store)) seen w' none →
      CallStep p calls host args blank (some (.caller ⟨l, w, m⟩)) seen
        (some (.callee l m callee.routine (passed blank (e.operands.map m.store))
          ⟨callee.entry, w', .fresh blank (e.operands.map m.store)⟩))
  | refused {l : L} {w w' : W} {m : Memory V} {seen more : List (Observation V)} {callee : Callee K}
      {e : Effect} {x : V} {c : Option (Config L V W)} :
      calls l = some callee → p.effect? l = some e →
      Greets host w (callee.checked (e.operands.map m.store)) seen w' (some x) →
      p.Unwinds host l w' m x more c →
      CallStep p calls host args blank (some (.caller ⟨l, w, m⟩)) (seen ++ more) (c.map .caller)
  | inner {l : L} {m : Memory V} {q : Routine K} {given : Nat → V} {c c' : Config K V W}
      {seen : List (Observation V)} :
      q.Step host given (some c) seen (some c') →
      CallStep p calls host args blank (some (.callee l m q given c)) seen
        (some (.callee l m q given c'))
  | returns {l : L} {m : Memory V} {q : Routine K} {given : Nat → V} {c : Config K V W}
      {value : Option Nat} {e : Effect} :
      q.effect? c.place = some (.ret value) → p.effect? l = some e →
      CallStep p calls host args blank (some (.callee l m q given c)) []
        (some (.caller ⟨p.next l, c.world, m.after e (value.map c.memory.store)⟩))
  | throws {l : L} {m m' : Memory V} {q : Routine K} {given : Nat → V} {k : K}
      {w w' : W} {e : Effect}
      {seen more : List (Observation V)} {x : V} {c : Option (Config L V W)} :
      q.effect? k = some e → e.Runs host given w m' seen w' (.raise x) →
      (q.handlers k).find? (host.accepts x) = none → p.Unwinds host l w' m x more c →
      CallStep p calls host args blank (some (.callee l m q given ⟨k, w, m'⟩)) (seen ++ more)
        (c.map .caller)

/-! ## Two callers -/

variable {host : Host V W} {args : Nat → V} {blank : V} {w : W} {m m' : Memory V} {p : Routine L}
  {q : Routine L'} {calls : L → Option (Callee K)} {calls' : L' → Option (Callee K)}
  {l : L} {l' : L'} {related : Nat → Option (Activity L K V W) → Option (Activity L' K V W) → Prop}

theorem matched_own (hl : calls l = none) (hl' : calls' l' = none)
    (h : Matched (p.Step host args) (q.Step host args)
      (fun n a b => related n (a.map .caller) (b.map .caller)) (some ⟨l, w, m⟩)
        (some ⟨l', w, m'⟩)) :
    Matched (p.CallStep calls host args blank) (q.CallStep calls' host args blank) related
      (some (.caller ⟨l, w, m⟩)) (some (.caller ⟨l', w, m'⟩)) := by
  intro seen a hstep
  cases hstep with
  | own _ hstep =>
    obtain ⟨b, n, hstep', hrelated⟩ := h _ _ hstep
    exact ⟨_, n, .own hl' hstep', hrelated⟩
  | call hcall _ _ => cases hl.symm.trans hcall
  | refused hcall _ _ _ => cases hl.symm.trans hcall

def Handles (p : Routine L) (q : Routine L')
    (related : Nat → Option (Activity L K V W) → Option (Activity L' K V W) → Prop)
    (l : L) (l' : L') (m m' : Memory V) : Prop :=
  ∀ w x, SameHandlers
    (fun t t' => ∃ n, related n (some (.caller (p.enter l t w { m with caught := x })))
      (some (.caller (q.enter l' t' w { m' with caught := x })))) (p.handlers l) (q.handlers l')

theorem Handles.symm (h : Handles p q related l l' m m') :
    Handles q p (fun n b a => related n a b) l' l m' m :=
  fun w x => (h w x).symm

theorem Handles.unwinds (h : Handles p q related l l' m m')
    (hends : ∃ n, related n none none) {x : V}
    {more : List (Observation V)} {c : Option (Config L V W)} (hu : p.Unwinds host l w m x more c) :
    ∃ c' n, q.Unwinds host l' w m' x more c' ∧ related n (c.map .caller) (c'.map .caller) := by
  rcases (h w x).find? with ⟨hnone, hnone'⟩ | ⟨f, f', hf, hf', hguard, n, hrelated⟩
  · cases hu with
    | caught hfind => cases hfind.symm.trans hnone
    | escaped _ =>
      obtain ⟨n, hrelated⟩ := hends
      exact ⟨none, n, .escaped hnone', hrelated⟩
  · cases hu with
    | caught hfind =>
      obtain rfl := Option.some.inj (hfind.symm.trans hf)
      rw [← hguard]
      exact ⟨_, n, .caught hf', hrelated⟩
    | escaped hfind => cases hfind.symm.trans hf

theorem matched_call {callee : Callee K} (hl : calls l = some callee)
    (hl' : calls' l' = some callee)
    {e e' : Effect} (he : p.effect? l = some e) (he' : q.effect? l' = some e')
    (hvalues : e.operands.map m.store = e'.operands.map m'.store)
    (henter : ∀ given c, ∃ n, related n (some (.callee l m callee.routine given c))
      (some (.callee l' m' callee.routine given c)))
    (hraise : Handles p q related l l' m m') (hends : ∃ n, related n none none) :
    Matched (p.CallStep calls host args blank) (q.CallStep calls' host args blank) related
      (some (.caller ⟨l, w, m⟩)) (some (.caller ⟨l', w, m'⟩)) := by
  intro seen a hstep
  cases hstep with
  | own hnone _ => cases hl.symm.trans hnone
  | call hcall heffect hgreets =>
    obtain rfl := Option.some.inj (hl.symm.trans hcall)
    obtain rfl := Option.some.inj (he.symm.trans heffect)
    rw [hvalues] at hgreets ⊢
    obtain ⟨n, hrelated⟩ := henter _ _
    exact ⟨_, n, .call hl' he' hgreets, hrelated⟩
  | refused hcall heffect hgreets hunwinds =>
    obtain rfl := Option.some.inj (hl.symm.trans hcall)
    obtain rfl := Option.some.inj (he.symm.trans heffect)
    rw [hvalues] at hgreets
    obtain ⟨c', n, hunwinds', hrelated⟩ := hraise.unwinds hends hunwinds
    exact ⟨_, n, .refused hl' he' hgreets hunwinds', hrelated⟩

theorem matched_inner {e e' : Effect} (he : p.effect? l = some e) (he' : q.effect? l' = some e')
    {c : Config K V W}
    (hinner : ∀ c', ∃ n, related n (some (.callee l m code given c'))
      (some (.callee l' m' code given c')))
    (hnext : ∀ w value, ∃ n, related n (some (.caller ⟨p.next l, w, m.after e value⟩))
      (some (.caller ⟨q.next l', w, m'.after e' value⟩))) (hraise : Handles p q related l l' m m')
    (hends : ∃ n, related n none none) :
    Matched (p.CallStep calls host args blank) (q.CallStep calls' host args blank) related
      (some (.callee l m code given c)) (some (.callee l' m' code given c)) := by
  intro seen a hstep
  cases hstep with
  | inner hstep =>
    obtain ⟨n, hrelated⟩ := hinner _
    exact ⟨_, n, .inner hstep, hrelated⟩
  | returns hret heffect =>
    obtain rfl := Option.some.inj (he.symm.trans heffect)
    obtain ⟨n, hrelated⟩ := hnext _ _
    exact ⟨_, n, .returns hret he', hrelated⟩
  | throws heffect hruns hfind hunwinds =>
    obtain ⟨c', n, hunwinds', hrelated⟩ := hraise.unwinds hends hunwinds
    exact ⟨_, n, .throws heffect hruns hfind hunwinds', hrelated⟩

/-! ## One caller alone -/

theorem slips_own {shows : Observation V → Bool} (hl : calls l = none) {c : Config L V W}
    (h : Slips ((p.Step host args).showing shows) (some ⟨l, w, m⟩) (some c)) :
    Slips ((p.CallStep calls host args blank).showing shows) (some (.caller ⟨l, w, m⟩))
      (some (.caller c)) := by
  obtain ⟨all, hstep, -⟩ := h.1
  refine slips_showing (.own hl hstep) fun other b hother => ?_
  cases hother with
  | own _ hstep =>
    obtain ⟨hseen, rfl⟩ := h.2 _ _ ⟨_, hstep, rfl⟩
    exact ⟨hseen, rfl⟩
  | call hcall _ _ => cases hl.symm.trans hcall
  | refused hcall _ _ _ => cases hl.symm.trans hcall

theorem slips_inner {shows : Observation V → Bool} {c c' : Config K V W}
    (h : Slips ((code.Step host given).showing shows) (some c) (some c')) :
    Slips ((p.CallStep calls host args blank).showing shows) (some (.callee l m code given c))
      (some (.callee l m code given c')) := by
  obtain ⟨all, hstep, -⟩ := h.1
  refine slips_showing (.inner hstep) fun other b hother => ?_
  cases hother with
  | inner hstep =>
    obtain ⟨hseen, heq⟩ := h.2 _ _ ⟨_, hstep, rfl⟩
    cases heq
    exact ⟨hseen, rfl⟩
  | returns hret _ => cases (h.2 _ _ ⟨_, .halt hret .ret, rfl⟩).2
  | throws heffect hruns hfind _ => cases (h.2 _ _ ⟨_, .escaped heffect hruns hfind, rfl⟩).2

theorem slips_returns {c : Config K V W} {value : Option Nat} {e : Effect}
    (hret : code.effect? c.place = some (.ret value)) (he : p.effect? l = some e) :
    Slips (p.CallStep calls host args blank) (some (.callee l m code given c))
      (some (.caller ⟨p.next l, c.world, m.after e (value.map c.memory.store)⟩)) := by
  refine ⟨.returns hret he, fun seen b hstep => ?_⟩
  have heq : ∀ {e₁ : Effect}, code.effect? c.place = some e₁ → e₁ = .ret value := fun h =>
    Option.some.inj (h.symm.trans hret)
  cases hstep with
  | inner hstep =>
    cases hstep with
    | next h₁ hrun | jump h₁ hrun | caught h₁ hrun _ =>
      obtain rfl := heq h₁
      cases hrun
  | returns h₁ h₂ => grind
  | throws h₁ hrun _ _ =>
    obtain rfl := heq h₁
    cases hrun

theorem slips_call {callee : Callee K} {e : Effect} (hl : calls l = some callee)
    (he : p.effect? l = some e) (hchecked : callee.checked (e.operands.map m.store) = []) :
    Slips (p.CallStep calls host args blank) (some (.caller ⟨l, w, m⟩))
      (some (.callee l m callee.routine (passed blank (e.operands.map m.store))
        ⟨callee.entry, w, .fresh blank (e.operands.map m.store)⟩)) := by
  refine ⟨.call hl he (hchecked ▸ .unchecked), fun seen b hstep => ?_⟩
  cases hstep with
  | own hnone _ => cases hl.symm.trans hnone
  | call hcall heffect hgreets =>
    obtain rfl := Option.some.inj (hl.symm.trans hcall)
    obtain rfl := Option.some.inj (he.symm.trans heffect)
    rw [hchecked] at hgreets
    cases hgreets
    exact ⟨rfl, rfl⟩
  | refused hcall heffect hgreets _ =>
    obtain rfl := Option.some.inj (hl.symm.trans hcall)
    obtain rfl := Option.some.inj (he.symm.trans heffect)
    rw [hchecked] at hgreets
    cases hgreets

theorem not_callStep_none {seen : List (Observation V)} {a : Option (Activity L K V W)} :
    ¬ p.CallStep calls host args blank none seen a := by
  rintro ⟨⟩

theorem sameBehaviour_callStep_showing (p : Routine L) (host : Host V W)
    (args : Nat → V) (blank : V) (shows : Observation V → Bool) (c : Config L V W) :
    SameBehaviour ((p.Step host args).showing shows) (System.showing
      (p.CallStep (fun _ => none) host args blank : System (Option (Activity L K V W))
        (Observation V))
      shows) (some c) (some (.caller c)) := by
  have hlockstep : Lockstep ((p.Step host args).showing shows) (System.showing
      (p.CallStep (fun _ => none) host args blank : System (Option (Activity L K V W))
        (Observation V))
      shows) fun _ a b => b = a.map .caller := by
    rintro n a b rfl
    refine .inr
      (.inr (MatchedBoth.showing ⟨fun seen a' hstep => ?_, fun seen b' hstep => ?_⟩ shows))
    · cases a with
      | none => cases hstep
      | some c => exact ⟨_, 0, .own rfl hstep, rfl⟩
    · cases a with
      | none => exact absurd hstep not_callStep_none
      | some c =>
        cases hstep with
        | own _ hstep => exact ⟨_, 0, hstep, rfl⟩
        | call hcall _ _ => cases hcall
        | refused hcall _ _ _ => cases hcall
  exact hlockstep.sameBehaviour (n := 0) rfl

end BytecodeOpt.Execution
