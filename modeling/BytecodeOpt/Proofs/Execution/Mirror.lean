import BytecodeOpt.Proofs.Execution.Calling

/-!
# Code that stands for a call

Operations of a caller mirror the code of a callee when they do the same with operands of the
caller.  A caller that runs the operations and one that waits for the callee then perform the same
actions, and what the callee returns the other finds in an operand of its own.
-/

namespace BytecodeOpt.Execution

variable {V W L K : Type} {a : Option (Activity L K V W)}

/-! ## Names -/

structure Names where
  value : Nat → Option Operand
  result : Option Operand

namespace Names

def ofArguments (given : List Operand) : Names := ⟨(given[·]?), none⟩

def rename (names : Names) (x : Nat) (v : Operand) : Names :=
  { names with value := Function.update names.value x (some v) }

structure Hold (names : Names) (m m' : Memory V) : Prop where
  value : ∀ x v, names.value x = some v → m.store x = m'.store v
  result : ∀ v, names.result = some v → m.result = m'.store v

/-- What is called what after both sides got the same value, the callee for `x` and the caller for
`v`: the caller may not need that operand for anything else. -/
inductive Receive (names : Names) : Option Nat → Option Operand → Names → Prop where
  | kept {x : Nat} {v : Operand} : (∀ y, y ≠ x → names.value y ≠ some v) → names.result ≠ some v →
      Receive names (some x) (some v) (names.rename x v)
  | waits {v : Operand} : (∀ y, names.value y ≠ some v) →
      Receive names none (some v) { names with result := some v }
  | dropped : Receive names none none { names with result := none }

variable {names names' : Names} {m m' : Memory V}

theorem value_rename_self (x : Nat) (v : Operand) : (names.rename x v).value x = some v :=
  Function.update_self ..

theorem value_rename_of_ne {x y : Nat} (h : y ≠ x) (v : Operand) :
    (names.rename x v).value y = names.value y :=
  Function.update_of_ne h ..

theorem Hold.rename (h : names.Hold m m') {x : Nat} {v : Operand} {value : V}
    (hv : value = m'.store v) :
    (names.rename x v).Hold { m with store := Function.update m.store x value } m' := by
  refine ⟨fun y u hu => ?_, h.result⟩
  change Function.update m.store x value y = _
  by_cases hy : y = x
  · subst hy
    rw [value_rename_self, Option.some.injEq] at hu
    rw [Function.update_self, hv, hu]
  · rw [value_rename_of_ne hy] at hu
    rw [Function.update_of_ne hy, h.value y u hu]

theorem Hold.receive (h : names.Hold m m') (e e' : Effect)
    (hreceive : names.Receive e.dest? e'.dest? names')
    (value : V) : names'.Hold (m.after e (some value)) (m'.after e' (some value)) := by
  -- the operand that the caller writes holds nothing else that is needed
  have hkeep : ∀ u v : Operand, u ≠ v → m'.store u = Function.update m'.store v value u :=
    fun u v hne => (Function.update_of_ne hne ..).symm
  generalize hd : e.dest? = dest, hd' : e'.dest? = dest' at hreceive
  cases hreceive with
  | @kept x v hfree hresult =>
    rw [m'.after_of_dest hd', m.after_of_dest hd]
    refine ⟨fun y u hu => ?_, fun u hu => ?_⟩
    · change Function.update m.store x value y = Function.update m'.store v value u
      by_cases hy : y = x
      · subst hy
        rw [value_rename_self, Option.some.injEq] at hu
        rw [Function.update_self, hu, Function.update_self]
      · rw [value_rename_of_ne hy] at hu
        rw [Function.update_of_ne hy, ← hkeep u v fun huv => hfree y hy (huv ▸ hu)]
        exact h.value y u hu
    · exact (h.result u hu).trans (hkeep u v fun huv => hresult (huv ▸ hu))
  | @waits v hfree =>
    rw [m.after_of_no_dest hd, m'.after_of_dest hd']
    refine ⟨fun y u hu => ?_, fun u hu => ?_⟩
    · exact (h.value y u hu).trans (hkeep u v fun huv => hfree y (huv ▸ hu))
    · grind
  | dropped =>
    rw [m.after_of_no_dest hd, m'.after_of_no_dest hd']
    exact ⟨h.value, fun u hu => by cases hu⟩

end Names

/-! ## Mirrored code -/

/-- From place `k` on a callee, called with the operands `given`, does what the operations do, and
returns what the caller then finds in `returned`.  The number bounds how often one of them goes on
alone.  Lines of the callee are left out only if nobody looks at them. -/
inductive Mirrors (code : Routine K) (given : List Operand) (returned : Option Operand)
    (quiet : Prop) :
    Nat → K → Names → List Op → Prop where
  | line {n : Nat} {k : K} {names : Names} {ops : List Op} {number : Nat} : quiet →
      code.effect? k = some (.line number) →
      Mirrors code given returned quiet n (code.next k) names ops →
      Mirrors code given returned quiet (n + 1) k names ops
  | argument {n : Nat} {k : K} {names : Names} {ops : List Op} {x index : Nat} {v : Operand} :
      code.effect? k = some (.argument x index) → given[index]? = some v →
      Mirrors code given returned quiet n (code.next k) (names.rename x v) ops →
      Mirrors code given returned quiet (n + 1) k names ops
  | copy {n : Nat} {k : K} {names : Names} {ops : List Op} {x y : Nat} {v : Operand} :
      code.effect? k = some (.copy x y) → names.value y = some v →
      Mirrors code given returned quiet n (code.next k) (names.rename x v) ops →
      Mirrors code given returned quiet (n + 1) k names ops
  | result {n : Nat} {k : K} {names : Names} {ops : List Op} {x : Nat} {v : Operand} :
      code.effect? k = some (.result x) → names.result = some v →
      Mirrors code given returned quiet n (code.next k) (names.rename x v) ops →
      Mirrors code given returned quiet (n + 1) k names ops
  | goto {n : Nat} {k : K} {names : Names} {ops : List Op} {t : Nat} :
      code.effect? k = some (.goto t) → (∀ x, code.source k t x = x) →
      Mirrors code given returned quiet n (code.target k t) names ops →
      Mirrors code given returned quiet (n + 1) k names ops
  | move {n : Nat} {k : K} {names : Names} {ops : List Op} {x : Nat} {u v : Operand} :
      names.value x = some u → names.Receive (some x) (some v) (names.rename x v) →
      Mirrors code given returned quiet n k (names.rename x v) ops →
      Mirrors code given returned quiet (n + 1) k names (.move v u :: ops)
  | act {n : Nat} {k : K} {names names' : Names} {ops : List Op} {op : Op} {action : Action}
      {xs : List Nat} {dest : Option Nat} {vs : List Operand} {dest' : Option Operand} :
      code.effect? k = some (.act action xs dest) → op.effect = .act action vs dest' →
      action ≠ .throw → code.handlers k = [] →
      List.Forall₂ (fun x v => names.value x = some v) xs vs → names.Receive dest dest' names' →
      Mirrors code given returned quiet n (code.next k) names' ops →
      Mirrors code given returned quiet 0 k names (op :: ops)
  | ret {k : K} {names : Names} {value : Option Nat} :
      code.effect? k = some (.ret value) → value.map names.value = returned.map some →
      Mirrors code given returned quiet 0 k names []

/-! ## A caller beside one that waits -/

/-- A system has an action performed where nothing is caught: it goes on with the value, or an
exception ends the run. -/
inductive Attempts {σ : Type} (host : Host V W) (w : W) (action : Action) (values : List V)
    (next : V → W → σ) (ended : σ) : List (Observation V) → σ → Prop where
  | completes {value : V} {w' : W} : action ≠ .throw →
      host.performs w action values (.completes value) w' →
      Attempts host w action values next ended [.performed action values (.completes value)]
        (next value w')
  | raises {x : V} {w' : W} : action.canThrow = true →
      host.performs w action values (.raises x) w' →
      Attempts host w action values next ended [.performed action values (.raises x),
        .escaped x] ended

/-- Systems that have the same action performed on the same values go on together. -/
theorem matched_of_attempts {σ τ : Type} {host : Host V W} {w : W} {action : Action}
    {values : List V}
    {step : System σ (Observation V)} {step' : System τ (Observation V)} {next : V → W → σ}
    {next' : V → W → τ} {a ended : σ} {b ended' : τ} {related : Nat → σ → τ → Prop}
    (h : ∀ seen c, step a seen c ↔ Attempts host w action values next ended seen c)
    (h' : ∀ seen c, step' b seen c ↔ Attempts host w action values next' ended' seen c)
    (hnext : ∀ value w', ∃ n, related n (next value w') (next' value w'))
    (hends : ∃ n, related n ended ended') : Matched step step' related a b := by
  intro seen c hstep
  cases (h seen c).1 hstep with
  | completes hne hperforms =>
    obtain ⟨n, hrelated⟩ := hnext _ _
    exact ⟨_, n, (h' _ _).2 (.completes hne hperforms), hrelated⟩
  | raises hthrows hperforms =>
    obtain ⟨n, hrelated⟩ := hends
    exact ⟨_, n, (h' _ _).2 (.raises hthrows hperforms), hrelated⟩

variable {host : Host V W} {args : Nat → V} {blank : V} {w : W} {m : Memory V} {p : Routine L}
  {calls : L → Option (Callee K)} {l : L} {action : Action} {xs : List Nat} {dest : Option Nat}
  {seen : List (Observation V)} {values : List V}

theorem slips_of_line {shows : Observation V → Bool} {number : Nat}
    (he : p.effect? l = some (.line number)) (hshows : shows (.line number) = false) :
    Slips ((p.Step host args).showing shows) (some ⟨l, w, m⟩) (some ⟨p.next l, w, m⟩) := by
  have heq : ∀ {e₁ : Effect}, p.effect? l = some e₁ → e₁ = .line number := fun h =>
    Option.some.inj (h.symm.trans he)
  refine slips_showing (.next he .line) fun other b hstep => ?_
  cases hstep with
  | next h₁ hrun =>
    obtain rfl := heq h₁
    cases hrun
    exact ⟨by simp [hshows], rfl⟩
  | jump h₁ hrun | caught h₁ hrun _ | escaped h₁ hrun _ | halt h₁ hrun =>
    obtain rfl := heq h₁
    cases hrun

theorem unwinds_iff_of_no_handlers {x : V} {c : Option (Config L V W)} (hl : p.handlers l = []) :
    p.Unwinds host l w m x seen c ↔ seen = [.escaped x] ∧ c = none := by
  constructor
  · intro h
    cases h with
    | caught hfind => simp [hl] at hfind
    | escaped => exact ⟨rfl, rfl⟩
  · rintro ⟨rfl, rfl⟩
    exact .escaped (by rw [hl, List.find?_nil])

theorem step_iff_attempts (he : p.effect? l = some (.act action xs dest)) (hl : p.handlers l = [])
    (hvalues : xs.map m.store = values) {c : Option (Config L V W)} :
    p.Step host args (some ⟨l, w, m⟩) seen c ↔
      Attempts host w action values
        (fun value w' => some ⟨p.next l, w', m.after (.act action xs dest) (some value)⟩)
          none seen c := by
  subst hvalues
  have heq : ∀ {e₁ : Effect}, p.effect? l = some e₁ → e₁ = .act action xs dest := fun h =>
    Option.some.inj (h.symm.trans he)
  constructor
  · intro hstep
    cases hstep with
    | next h₁ hrun =>
      obtain rfl := heq h₁
      cases hrun with
      | completes hne hperforms => exact .completes hne hperforms
    | escaped h₁ hrun _ =>
      obtain rfl := heq h₁
      cases hrun with
      | raises hthrows hperforms => exact .raises hthrows hperforms
    | caught _ _ hfind => simp [hl] at hfind
    | jump h₁ hrun | halt h₁ hrun =>
      obtain rfl := heq h₁
      cases hrun
  · intro h
    cases h with
    | completes hne hperforms => exact .next he (.completes hne hperforms)
    | raises hthrows hperforms =>
      exact .escaped he (.raises hthrows hperforms) (by rw [hl, List.find?_nil])

theorem own_iff_attempts (hcalls : calls l = none) (he : p.effect? l = some (.act action xs dest))
    (hl : p.handlers l = []) (hvalues : xs.map m.store = values) :
    p.CallStep calls host args blank (some (.caller ⟨l, w, m⟩)) seen a ↔
      Attempts host w action values (fun value w' =>
        some (.caller ⟨p.next l, w', m.after (.act action xs dest) (some value)⟩)) none seen a := by
  constructor
  · intro hstep
    cases hstep with
    | own _ hstep =>
      cases (step_iff_attempts he hl hvalues).1 hstep with
      | completes hne hperforms => exact .completes hne hperforms
      | raises hthrows hperforms => exact .raises hthrows hperforms
    | call hcall _ _ => cases hcalls.symm.trans hcall
    | refused hcall _ _ _ => cases hcalls.symm.trans hcall
  · intro h
    cases h with
    | completes hne hperforms =>
      exact .own hcalls ((step_iff_attempts he hl hvalues).2 (.completes hne hperforms))
    | raises hthrows hperforms =>
      exact .own hcalls ((step_iff_attempts he hl hvalues).2 (.raises hthrows hperforms))

theorem inner_iff_attempts {code : Routine K} {given : Nat → V} {k : K} {m' : Memory V}
    (he : code.effect? k = some (.act action xs dest)) (hk : code.handlers k = [])
    (hl : p.handlers l = []) (hvalues : xs.map m'.store = values) :
    p.CallStep calls host args blank (some (.callee l m code given ⟨k, w, m'⟩)) seen a ↔
      Attempts host w action values (fun value w' => some (.callee l m code given
        ⟨code.next k, w', m'.after (.act action xs dest) (some value)⟩)) none seen a := by
  constructor
  · intro hstep
    cases hstep with
    | inner hstep =>
      cases (step_iff_attempts he hk hvalues).1 hstep with
      | completes hne hperforms => exact .completes hne hperforms
    | returns hret _ => cases he.symm.trans hret
    | throws heffect hrun hfind hunwinds =>
      obtain ⟨rfl, rfl⟩ := (unwinds_iff_of_no_handlers hl).1 hunwinds
      cases he.symm.trans heffect
      cases hrun with
      | raises hthrows hperforms =>
        subst hvalues
        exact .raises hthrows hperforms
  · intro h
    cases h with
    | completes hne hperforms =>
      exact .inner ((step_iff_attempts he hk hvalues).2 (.completes hne hperforms))
    | raises hthrows hperforms =>
      subst hvalues
      exact .throws (c := none) he (.raises hthrows hperforms) (by rw [hk, List.find?_nil])
        ((unwinds_iff_of_no_handlers hl).2 ⟨rfl, rfl⟩)

theorem call_iff_attempts {callee : Callee K} {e : Effect} {receiver : V}
    (hcalls : calls l = some callee) (he : p.effect? l = some e) (hl : p.handlers l = [])
    (hchecked : callee.checked (e.operands.map m.store) = [receiver]) :
    p.CallStep calls host args blank (some (.caller ⟨l, w, m⟩)) seen a ↔
      Attempts host w .nullCheck [receiver] (fun _ w' => some (.callee l m callee.routine
        (passed blank (e.operands.map m.store))
        ⟨callee.entry, w', .fresh blank (e.operands.map m.store)⟩)) none seen a := by
  constructor
  · intro hstep
    cases hstep with
    | own hnone _ => cases hcalls.symm.trans hnone
    | call hcall heffect hgreets =>
      obtain rfl := Option.some.inj (hcalls.symm.trans hcall)
      obtain rfl := Option.some.inj (he.symm.trans heffect)
      rw [hchecked] at hgreets
      cases hgreets with
      | passes hperforms => exact .completes (by decide) hperforms
    | refused hcall heffect hgreets hunwinds =>
      obtain rfl := Option.some.inj (hcalls.symm.trans hcall)
      obtain rfl := Option.some.inj (he.symm.trans heffect)
      obtain ⟨rfl, rfl⟩ := (unwinds_iff_of_no_handlers hl).1 hunwinds
      rw [hchecked] at hgreets
      cases hgreets with
      | refuses hperforms => exact .raises rfl hperforms
  · intro h
    cases h with
    | completes _ hperforms => exact .call hcalls he (hchecked ▸ .passes hperforms)
    | @raises x w' _ hperforms =>
      have hgreets : Greets host w (callee.checked (e.operands.map m.store))
          [.performed .nullCheck [receiver] (.raises x)] w' (some x) := by
        rw [hchecked]
        exact .refuses hperforms
      exact .refused (c := none) hcalls he hgreets ((unwinds_iff_of_no_handlers hl).2 ⟨rfl, rfl⟩)

end BytecodeOpt.Execution
