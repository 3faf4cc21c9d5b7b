import BytecodeOpt.Proofs.Execution.Machine

/-!
# Effects that correspond

Two effects correspond when they do the same with operands of which each pair holds the same value.
Routines that have corresponding effects at two places go on together from there.
-/

namespace BytecodeOpt.Execution

variable {V W L L' : Type} {host : Host V W} {args : Nat → V} {w w' : W} {m m' : Memory V}
  {seen : List (Observation V)} {operand target : Nat → Nat → Prop} {e e' : Effect}
  {value : Option V} {t : Nat}

/-- The same action or decision on operands that belong together.  Where results go is left open. -/
inductive Effect.Corresponds (operand target : Nat → Nat → Prop) : Effect → Effect → Prop where
  | line {number : Nat} : Corresponds operand target (.line number) (.line number)
  | argument {dest dest' index : Nat} :
      Corresponds operand target (.argument dest index) (.argument dest' index)
  | copy {dest source dest' source' : Nat} : operand source source' →
      Corresponds operand target (.copy dest source) (.copy dest' source')
  | caught {dest dest' : Nat} : Corresponds operand target (.caught dest) (.caught dest')
  | act {action : Action} {operands operands' : List Nat} {dest dest' : Option Nat} :
      List.Forall₂ operand operands operands' →
      Corresponds operand target (.act action operands dest) (.act action operands' dest')
  | goto {t t' : Nat} : target t t' → Corresponds operand target (.goto t) (.goto t')
  | branch {cond : Condition} {left left' : Nat} {right right' : Option Nat} {t t' f f' : Nat} :
      operand left left' → List.Forall₂ operand right.toList right'.toList → target t t' →
      target f f' →
      Corresponds operand target (.branch cond left right t f) (.branch cond left' right' t' f')
  | switch {value value' : Nat} {keys : List Int} {targets targets' : List Nat} {d d' : Nat} :
      operand value value' → List.Forall₂ target targets targets' → target d d' →
      Corresponds operand target (.switch value keys targets d) (.switch value' keys targets' d')
  | ret {value value' : Option Nat} : List.Forall₂ operand value.toList value'.toList →
      Corresponds operand target (.ret value) (.ret value')

inductive Exit.Agrees (target : Nat → Nat → Prop) : Exit V → Exit V → Prop where
  | next {value : Option V} : Agrees target (.next value) (.next value)
  | jump {t t' : Nat} : target t t' → Agrees target (.jump t) (.jump t')
  | raise {exception : V} : Agrees target (.raise exception) (.raise exception)
  | halt : Agrees target .halt .halt

theorem Exit.Agrees.symm {exit exit' : Exit V} (h : exit.Agrees target exit') :
    exit'.Agrees (fun a b => target b a) exit := by
  cases h with
  | next => exact .next
  | jump h => exact .jump h
  | raise => exact .raise
  | halt => exact .halt

theorem map_eq_of_forall₂ {f g : Nat → V} (h : ∀ a b, operand a b → f a = g b) {xs ys : List Nat}
    (hall : List.Forall₂ operand xs ys) : xs.map f = ys.map g := by
  rw [← List.forall₂_eq_eq_eq, List.forall₂_map_left_iff, List.forall₂_map_right_iff]
  exact hall.imp h

theorem optionMap_eq_of_forall₂ {f g : Nat → V} (h : ∀ a b, operand a b → f a = g b)
    {x y : Option Nat} (hall : List.Forall₂ operand x.toList y.toList) : x.map f = y.map g := by
  have hmap := congrArg List.head? (map_eq_of_forall₂ h hall)
  rwa [List.head?_map, List.head?_map, Option.head?_toList, Option.head?_toList] at hmap

theorem target_getD {ts ts' : List Nat} {d d' : Nat} (hall : List.Forall₂ target ts ts')
    (hd : target d d')
    (key : Option Nat) : target ((key.bind (ts[·]?)).getD d) ((key.bind (ts'[·]?)).getD d') := by
  cases key with
  | none => exact hd
  | some k =>
    induction hall generalizing k with
    | nil => exact hd
    | cons hab _ ih =>
      cases k with
      | zero => exact hab
      | succ k => simpa using ih k

namespace Effect

section

variable (h : Corresponds operand target e e')
include h

theorem Corresponds.imp {operand' target' : Nat → Nat → Prop}
    (hoperand : ∀ a b, operand a b → operand' a b)
    (htarget : ∀ a b, target a b → target' a b) : Corresponds operand' target' e e' := by
  cases h with
  | line => exact .line
  | argument => exact .argument
  | copy h => exact .copy (hoperand _ _ h)
  | caught => exact .caught
  | act h => exact .act (h.imp hoperand)
  | goto h => exact .goto (htarget _ _ h)
  | branch hl hr ht hf =>
    exact .branch (hoperand _ _ hl) (hr.imp hoperand) (htarget _ _ ht) (htarget _ _ hf)
  | switch hv hts hd => exact .switch (hoperand _ _ hv) (hts.imp htarget) (htarget _ _ hd)
  | ret h => exact .ret (h.imp hoperand)

theorem Corresponds.symm : Corresponds (fun a b => operand b a) (fun a b => target b a) e' e := by
  cases h with
  | line => exact .line
  | argument => exact .argument
  | copy h => exact .copy h
  | caught => exact .caught
  | act h => exact .act h.flip
  | goto h => exact .goto h
  | branch hl hr ht hf => exact .branch hl hr.flip ht hf
  | switch hv hts hd => exact .switch hv hts.flip hd
  | ret h => exact .ret h.flip

theorem Corresponds.restrict :
    Corresponds (fun a b => a ∈ e.operands ∧ operand a b) (fun t t' => t ∈ e.targets ∧ target t t')
      e e' := by
  have hmem : ∀ {xs ys : List Nat}, xs ⊆ e.operands → List.Forall₂ operand xs ys →
      List.Forall₂ (fun a b => a ∈ e.operands ∧ operand a b) xs ys := fun hsub hall =>
    (List.forall₂_and_left _ _).2 ⟨fun _ ha => hsub ha, hall⟩
  cases h with
  | line => exact .line
  | argument => exact .argument
  | copy h => exact .copy ⟨by simp [operands], h⟩
  | caught => exact .caught
  | act h => exact .act (hmem (List.Subset.refl _) h)
  | goto h => exact .goto ⟨by simp [targets], h⟩
  | branch hl hr ht hf =>
    exact .branch ⟨List.mem_cons_self, hl⟩ (hmem (List.subset_cons_self _ _) hr)
      ⟨by simp [targets], ht⟩ ⟨by simp [targets], hf⟩
  | switch hv hts hd =>
    refine .switch ⟨List.mem_cons_self, hv⟩ ?_ ⟨by simp [targets], hd⟩
    exact (List.forall₂_and_left _ _).2 ⟨fun _ ht => List.mem_append_left _ ht, hts⟩
  | ret h => exact .ret (hmem (List.Subset.refl _) h)

theorem Corresponds.forall₂_operands : List.Forall₂ operand e.operands e'.operands := by
  cases h with
  | line | argument | caught | goto _ => exact .nil
  | copy h | switch h _ _ => exact .cons h .nil
  | act h | ret h => exact h
  | branch hl hr _ _ => exact .cons hl hr

theorem Corresponds.forall₂_targets : List.Forall₂ target e.targets e'.targets := by
  cases h with
  | line | argument | caught | copy _ | act _ | ret _ => exact .nil
  | goto h => exact .cons h .nil
  | branch _ _ ht hf => exact .cons ht (.cons hf .nil)
  | switch _ hts hd => exact List.rel_append hts (.cons hd .nil)

theorem Corresponds.leaves_eq : e'.leaves = e.leaves := by
  cases h with
  | @act action _ _ _ _ _ => cases action <;> rfl
  | _ => rfl

theorem Corresponds.canThrow_eq : e'.canThrow = e.canThrow := by
  cases h <;> rfl

/-- What one of two corresponding effects can do, the other can where the operands agree. -/
theorem Corresponds.runs (hstore : ∀ a b, operand a b → m.store a = m'.store b)
    (hcaught : m.caught = m'.caught) {exit : Exit V} (hrun : e.Runs host args w m seen w' exit) :
    ∃ exit', e'.Runs host args w m' seen w' exit' ∧ exit.Agrees target exit' := by
  cases h with
  | line =>
    cases hrun
    exact ⟨_, .line, .next⟩
  | argument =>
    cases hrun
    exact ⟨_, .argument, .next⟩
  | copy h =>
    cases hrun
    rw [hstore _ _ h]
    exact ⟨_, .copy, .next⟩
  | caught =>
    cases hrun
    rw [hcaught]
    exact ⟨_, .caught, .next⟩
  | act h =>
    have heq := map_eq_of_forall₂ hstore h
    cases hrun with
    | completes hne hperforms =>
      rw [heq] at hperforms ⊢
      exact ⟨_, .completes hne hperforms, .next⟩
    | raises hthrow hperforms =>
      rw [heq] at hperforms ⊢
      exact ⟨_, .raises hthrow hperforms, .raise⟩
  | goto h =>
    cases hrun
    exact ⟨_, .goto, .jump h⟩
  | branch hl hr ht hf =>
    cases hrun with
    | branch htaken =>
      rw [hstore _ _ hl, optionMap_eq_of_forall₂ hstore hr] at htaken ⊢
      refine ⟨_, .branch htaken, .jump ?_⟩
      split
      · exact ht
      · exact hf
  | switch hv hts hd =>
    cases hrun with
    | switch hkey =>
      rw [hstore _ _ hv] at hkey ⊢
      exact ⟨_, .switch hkey, .jump (target_getD hts hd _)⟩
  | ret h =>
    cases hrun
    rw [optionMap_eq_of_forall₂ hstore h]
    exact ⟨_, .ret, .halt⟩

end

theorem Runs.dest?_eq_none (h : e.Runs host args w m seen w' (.next none)) : e.dest? = none := by
  cases h <;> rfl

section

variable (h : e.Runs host args w m seen w' (.jump t))
include h

theorem Runs.dest?_of_jump : e.dest? = none := by
  cases h <;> rfl

theorem Runs.mem_targets_of_jump : t ∈ e.targets := by
  cases h with
  | goto => exact List.mem_singleton.2 rfl
  | branch htaken => split <;> simp [targets]
  | @switch value keys ts default key hkey =>
    rw [targets, List.mem_append]
    cases hget : key.bind (ts[·]?) with
    | none => exact .inr (by simp)
    | some t =>
      obtain ⟨k, -, hk⟩ := Option.bind_eq_some_iff.1 hget
      exact .inl (List.mem_of_getElem? hk)

theorem Runs.leaves_of_jump : e.leaves = true := by
  cases h <;> rfl

end

theorem Runs.leaves_of_next (h : e.Runs host args w m seen w' (.next value)) :
    e.leaves = false := by
  cases h with
  | @completes action _ _ _ _ hne _ => cases action <;> first | rfl | exact absurd rfl hne
  | _ => rfl

theorem Runs.canThrow_of_raise {x : V} (h : e.Runs host args w m seen w' (.raise x)) :
    e.canThrow = true := by
  cases h
  assumption

end Effect

/-! ## Steps together -/

/-- Handlers with the same guards in the same order, whose targets are related. -/
abbrev SameHandlers (target : Nat → Nat → Prop) : List Handler → List Handler → Prop :=
  List.Forall₂ fun h h' => h'.guard = h.guard ∧ target h.target h'.target

theorem SameHandlers.symm {hs hs' : List Handler} (h : SameHandlers target hs hs') :
    SameHandlers (fun a b => target b a) hs' hs :=
  h.flip.imp fun _ _ hboth => ⟨hboth.1.symm, hboth.2⟩

theorem SameHandlers.find? {exception : V} {hs hs' : List Handler}
    (h : SameHandlers target hs hs') :
    (hs.find? (host.accepts exception) = none ∧ hs'.find? (host.accepts exception) = none) ∨
      ∃ f f', hs.find? (host.accepts exception) = some f ∧
        hs'.find? (host.accepts exception) = some f' ∧ f'.guard = f.guard ∧
        target f.target f'.target := by
  induction h with
  | nil => exact .inl ⟨rfl, rfl⟩
  | @cons f f' rest rest' hboth _ ih =>
    have haccepts : host.accepts exception f' = host.accepts exception f := by
      rw [Host.accepts, Host.accepts, hboth.1]
    rw [List.find?_cons, List.find?_cons, haccepts]
    cases host.accepts exception f with
    | true => exact .inr ⟨f, f', rfl, rfl, hboth⟩
    | false => exact ih

/-- What is to be shown for two places with corresponding effects: that the routines are related
again wherever they go on. -/
structure Rejoins (p : Routine L) (q : Routine L') (host : Host V W) (args : Nat → V)
    (related : Nat → Option (Config L V W) → Option (Config L' V W) → Prop)
    (target : Nat → Nat → Prop) (l : L) (l' : L') (e e' : Effect) (w : W) (m m' : Memory V) :
    Prop where
  next : ∀ seen w' value, e.Runs host args w m seen w' (.next value) →
    ∃ n, related n (some ⟨p.next l, w', m.after e value⟩) (some ⟨q.next l', w', m'.after e' value⟩)
  jump : ∀ seen w' t t', e.Runs host args w m seen w' (.jump t) →
    e'.Runs host args w m' seen w' (.jump t') → target t t' →
    ∃ n, related n (some (p.enter l t w' m)) (some (q.enter l' t' w' m'))
  raise : ∀ seen w' x, e.Runs host args w m seen w' (.raise x) →
    SameHandlers (fun t t' => ∃ n, related n (some (p.enter l t w' { m with caught := x }))
      (some (q.enter l' t' w' { m' with caught := x }))) (p.handlers l) (q.handlers l')
  ends : ∃ n, related n none none

variable {p : Routine L} {q : Routine L'}
  {related : Nat → Option (Config L V W) → Option (Config L' V W) → Prop} {l : L} {l' : L'}

/-- The routines are related again where control goes from two places, in worlds `w` and `u`. -/
inductive Joins (p : Routine L) (q : Routine L')
    (related : Nat → Option (Config L V W) → Option (Config L' V W) → Prop) (l : L) (l' : L')
    (e e' : Effect) (w u : W) (m m' : Memory V) : Exit V → Exit V → Prop where
  | next {n : Nat} {value value' : Option V} :
      related n (some ⟨p.next l, w, m.after e value⟩) (some ⟨q.next l', u, m'.after e' value'⟩) →
      Joins p q related l l' e e' w u m m' (.next value) (.next value')
  | jump {n t t' : Nat} : related n (some (p.enter l t w m)) (some (q.enter l' t' u m')) →
      Joins p q related l l' e e' w u m m' (.jump t) (.jump t')
  | raise {x : V} :
      SameHandlers (fun t t' => ∃ n, related n (some (p.enter l t w { m with caught := x }))
        (some (q.enter l' t' u { m' with caught := x }))) (p.handlers l) (q.handlers l') →
      Joins p q related l l' e e' w u m m' (.raise x) (.raise x)
  | halt : Joins p q related l l' e e' w u m m' .halt .halt

theorem Joins.symm {u : W} {exit exit' : Exit V}
    (h : Joins p q related l l' e e' w u m m' exit exit') :
    Joins q p (fun n b a => related n a b) l' l e' e u w m' m exit' exit := by
  cases h with
  | next h => exact .next h
  | jump h => exact .jump h
  | raise h => exact .raise h.symm
  | halt => exact .halt

theorem matched_of_runs {ε : Type} {view : Observation V → Option ε} {u : W}
    (he : p.effect? l = some e) (he' : q.effect? l' = some e') (hends : ∃ n, related n none none)
    (h : ∀ seen w' exit, e.Runs host args w m seen w' exit → ∃ seen' u' exit',
      e'.Runs host args u m' seen' u' exit' ∧ seen'.filterMap view = seen.filterMap view ∧
        Joins p q related l l' e e' w' u' m m' exit exit') :
    Matched ((p.Step host args).viewing view) ((q.Step host args).viewing view) related
      (some ⟨l, w, m⟩)
      (some ⟨l', u, m'⟩) := by
  rintro _ a ⟨seen, hstep, rfl⟩
  have hmeets : ∀ {e₁ seen w' exit}, p.effect? l = some e₁ → e₁.Runs host args w m seen w' exit →
      e₁ = e ∧ ∃ seen' u' exit', e'.Runs host args u m' seen' u' exit' ∧ seen.filterMap view =
        seen'.filterMap view ∧
        Joins p q related l l' e e' w' u' m m' exit exit' := by
    intro e₁ seen w' exit h₁ hrun
    obtain rfl := Option.some.inj (h₁.symm.trans he)
    obtain ⟨seen', u', exit', hrun', hseen, hjoins⟩ := h seen w' exit hrun
    exact ⟨rfl, seen', u', exit', hrun', hseen.symm, hjoins⟩
  cases hstep with
  | next h₁ hrun =>
    obtain ⟨rfl, seen', u', exit', hrun', hseen, hjoins⟩ := hmeets h₁ hrun
    cases hjoins with
    | next hrelated => exact ⟨_, _, ⟨_, .next he' hrun', hseen⟩, hrelated⟩
  | jump h₁ hrun =>
    obtain ⟨rfl, seen', u', exit', hrun', hseen, hjoins⟩ := hmeets h₁ hrun
    cases hjoins with
    | jump hrelated => exact ⟨_, _, ⟨_, .jump he' hrun', hseen⟩, hrelated⟩
  | caught h₁ hrun hfind =>
    obtain ⟨rfl, seen', u', exit', hrun', hseen, hjoins⟩ := hmeets h₁ hrun
    cases hjoins with
    | raise hhandlers =>
      rcases hhandlers.find? with ⟨hnone, -⟩ | ⟨f, f', hf, hf', hguard, n, hrelated⟩
      · cases hfind.symm.trans hnone
      · obtain rfl := Option.some.inj (hfind.symm.trans hf)
        refine ⟨_, n, ⟨_, .caught he' hrun' hf', ?_⟩, hrelated⟩
        rw [List.filterMap_append, List.filterMap_append, hseen, hguard]
  | escaped h₁ hrun hfind =>
    obtain ⟨rfl, seen', u', exit', hrun', hseen, hjoins⟩ := hmeets h₁ hrun
    cases hjoins with
    | raise hhandlers =>
      rcases hhandlers.find? with ⟨-, hnone⟩ | ⟨f, f', hf, -⟩
      · obtain ⟨n, hrelated⟩ := hends
        refine ⟨_, n, ⟨_, .escaped he' hrun' hnone, ?_⟩, hrelated⟩
        rw [List.filterMap_append, List.filterMap_append, hseen]
      · cases hfind.symm.trans hf
  | halt h₁ hrun =>
    obtain ⟨rfl, seen', u', exit', hrun', hseen, hjoins⟩ := hmeets h₁ hrun
    cases hjoins
    obtain ⟨n, hrelated⟩ := hends
    exact ⟨_, n, ⟨_, .halt he' hrun', hseen⟩, hrelated⟩

theorem Rejoins.joins (h : Rejoins p q host args related target l l' e e' w m m')
    {exit exit' : Exit V}
    (hrun : e.Runs host args w m seen w' exit) (hrun' : e'.Runs host args w m' seen w' exit')
    (hagrees : exit.Agrees target exit') : Joins p q related l l' e e' w' w' m m' exit exit' := by
  cases hagrees with
  | next =>
    obtain ⟨n, hrelated⟩ := h.next _ _ _ hrun
    exact .next hrelated
  | jump ht =>
    obtain ⟨n, hrelated⟩ := h.jump _ _ _ _ hrun hrun' ht
    exact .jump hrelated
  | raise => exact .raise (h.raise _ _ _ hrun)
  | halt => exact .halt

theorem matched_both (he : p.effect? l = some e) (he' : q.effect? l' = some e')
    (hcorr : e.Corresponds operand target e') (hstore : ∀ a b, operand a b → m.store a = m'.store b)
    (hcaught : m.caught = m'.caught) (h : Rejoins p q host args related target l l' e e' w m m') :
    MatchedBoth (p.Step host args) (q.Step host args) related (some ⟨l, w, m⟩)
      (some ⟨l', w, m'⟩) := by
  rw [← (p.Step host args).viewing_some, ← (q.Step host args).viewing_some]
  constructor
  · refine matched_of_runs he he' h.ends fun seen w' exit hrun => ?_
    obtain ⟨exit', hrun', hagrees⟩ := hcorr.runs hstore hcaught hrun
    exact ⟨seen, w', exit', hrun', rfl, h.joins hrun hrun' hagrees⟩
  · refine matched_of_runs he' he h.ends fun seen w' exit hrun => ?_
    obtain ⟨exit', hrun', hagrees⟩ := hcorr.symm.runs (fun a b hab => (hstore b a hab).symm)
      hcaught.symm hrun
    exact ⟨seen, w', exit', hrun', rfl, (h.joins hrun' hrun hagrees.symm).symm⟩

/-! ## Places that are passed over -/

/-- One step of a run that sees nothing of what happens at some places, where nothing is raised. -/
inductive Routine.Sparing (p : Routine L) (spared : L → Prop) (host : Host V W) (args : Nat → V) :
    System (Option (Config L V W)) (Observation V) where
  | seen {c : Config L V W} {seen : List (Observation V)} {b : Option (Config L V W)} :
      ¬ spared c.place → p.Step host args (some c) seen b →
        Sparing p spared host args (some c) seen b
  | spared {l : L} {w w' : W} {m : Memory V} {e : Effect} {seen : List (Observation V)}
      {value : Option V} :
      spared l → p.effect? l = some e → e.Runs host args w m seen w' (.next value) →
      Sparing p spared host args (some ⟨l, w, m⟩) [] (some ⟨p.next l, w', m.after e value⟩)

theorem matched_sparing {spared : L → Prop} {spared' : L' → Prop} (he : p.effect? l = some e)
    (he' : q.effect? l' = some e') (hspared : spared l ↔ spared' l')
    (hcorr : e.Corresponds operand target e')
    (hstore : ∀ a b, operand a b → m.store a = m'.store b) (hcaught : m.caught = m'.caught)
    (h : Rejoins p q host args related target l l' e e' w m m') :
    Matched (p.Sparing spared host args) (q.Sparing spared' host args) related (some ⟨l, w, m⟩)
      (some ⟨l', w, m'⟩) := by
  intro seen a hstep
  cases hstep with
  | seen hnot hstep =>
    obtain ⟨b, n, hstep', hrelated⟩ := (matched_both he he' hcorr hstore hcaught h).1 seen a hstep
    exact ⟨b, n, .seen (mt hspared.2 hnot) hstep', hrelated⟩
  | spared hl h₁ hrun =>
    obtain rfl := Option.some.inj (h₁.symm.trans he)
    obtain ⟨exit', hrun', hagrees⟩ := hcorr.runs hstore hcaught hrun
    cases hagrees
    obtain ⟨n, hrelated⟩ := h.next _ _ _ hrun
    exact ⟨_, n, .spared (hspared.1 hl) he' hrun', hrelated⟩

/-! ## Steps alone -/

theorem Routine.Step.exists_effect {b : Option (Config L V W)}
    (h : p.Step host args (some ⟨l, w, m⟩) seen b) : ∃ e, p.effect? l = some e := by
  cases h <;> exact ⟨_, ‹_›⟩

/-- Effects that only move a value, which nobody sees. -/
inductive Effect.Moves (args : Nat → V) (m : Memory V) : Effect → Option V → Prop where
  | skip : Moves args m .skip none
  | argument {dest index : Nat} : Moves args m (.argument dest index) (some (args index))
  | copy {dest source : Nat} : Moves args m (.copy dest source) (some (m.store source))
  | result {dest : Nat} : Moves args m (.result dest) (some m.result)
  | caught {dest : Nat} : Moves args m (.caught dest) (some m.caught)

theorem Effect.Moves.runs (h : e.Moves args m value) {exit : Exit V} :
    e.Runs host args w m seen w' exit ↔ seen = [] ∧ w' = w ∧ exit = .next value := by
  constructor
  · intro hrun
    cases h <;> cases hrun <;> exact ⟨rfl, rfl, rfl⟩
  · rintro ⟨rfl, rfl, rfl⟩
    cases h with
    | skip => exact .skip
    | argument => exact .argument
    | copy => exact .copy
    | result => exact .result
    | caught => exact .caught

theorem slips_of_moves (he : p.effect? l = some e) (h : e.Moves args m value) :
    Slips (p.Step host args) (some ⟨l, w, m⟩) (some ⟨p.next l, w, m.after e value⟩) := by
  refine ⟨.next he (h.runs.2 ⟨rfl, rfl, rfl⟩), ?_⟩
  intro seen b hstep
  have heq : ∀ {e₁ : Effect}, p.effect? l = some e₁ → e₁ = e := fun h =>
    Option.some.inj (h.symm.trans he)
  cases hstep with
  | next h₁ hrun =>
    obtain rfl := heq h₁
    obtain ⟨rfl, rfl, hexit⟩ := h.runs.1 hrun
    cases hexit
    exact ⟨rfl, rfl⟩
  | jump h₁ hrun | caught h₁ hrun _ | escaped h₁ hrun _ | halt h₁ hrun =>
    obtain rfl := heq h₁
    cases (h.runs.1 hrun).2.2

theorem slips_of_goto (he : p.effect? l = some (.goto t)) :
    Slips (p.Step host args) (some ⟨l, w, m⟩) (some (p.enter l t w m)) := by
  refine ⟨.jump he .goto, ?_⟩
  intro seen b hstep
  have heq : ∀ {e₁ : Effect}, p.effect? l = some e₁ → e₁ = .goto t := fun h =>
    Option.some.inj (h.symm.trans he)
  cases hstep with
  | jump h₁ hrun =>
    obtain rfl := heq h₁
    cases hrun
    exact ⟨rfl, rfl⟩
  | next h₁ hrun | caught h₁ hrun _ | escaped h₁ hrun _ | halt h₁ hrun =>
    obtain rfl := heq h₁
    cases hrun

end BytecodeOpt.Execution
