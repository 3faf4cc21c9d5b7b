import BytecodeOpt.Proofs.Fallible
import BytecodeOpt.Proofs.Ssa.Body
import BytecodeOpt.Ssa.Lift

/-!
# Lifting actions

How an action that lifts code comes to its result: what its parts did one after the other, and what
the small ones do to the state.
-/

namespace BytecodeOpt.Ssa.Lift

variable {α β : Type} {s s' : State}

/-! ## Sequences -/

theorem run_bind_eq_ok {x : LiftM α} {f : α → LiftM β} {r : β × State} :
    (x >>= f).run s = .ok r ↔ ∃ a s₁, x.run s = .ok (a, s₁) ∧ (f a).run s₁ = .ok r := by
  rw [StateT.run_bind, Fallible.bind_eq_ok, Prod.exists]

theorem run_map_eq_ok {f : α → β} {x : LiftM α} {b : β} :
    (f <$> x).run s = .ok (b, s') ↔ ∃ a, x.run s = .ok (a, s') ∧ b = f a := by
  rw [StateT.run_map, Fallible.map_eq_ok]
  simp only [Prod.exists, Prod.mk.injEq]
  constructor
  · grind
  · grind

theorem run_throw (fault : LiftFault) : (throw fault : LiftM α).run s = .error fault := rfl

theorem run_pure_eq_ok {a b : α} : (pure a : LiftM α).run s = .ok (b, s') ↔ b = a ∧ s' = s := by
  rw [StateT.run_pure, Fallible.pure_eq_ok, Prod.mk.injEq]

theorem run_lift_eq_ok {x : Except LiftFault α} {a : α} :
    (liftM x : LiftM α).run s = .ok (a, s') ↔ x = .ok a ∧ s' = s := by
  change (x >>= fun a => pure (a, s)) = .ok (a, s') ↔ _
  simp only [Fallible.bind_eq_ok, Fallible.pure_eq_ok, Prod.mk.injEq]
  grind

/-- An action for each element in turn: what one keeps all keep, and what each result is known for
stays known. -/
theorem run_mapM_eq_ok {f : α → LiftM β} (keeps : State → Prop) (leads : State → State → Prop)
    (known : State → α → β → Prop) (hrefl : ∀ s, leads s s)
    (htrans : ∀ {s₁ s₂ s₃}, leads s₁ s₂ → leads s₂ s₃ → leads s₁ s₃)
    (hmono : ∀ {s₁ s₂ a b}, leads s₁ s₂ → known s₁ a b → known s₂ a b) {xs : List α}
    (hstep : ∀ x ∈ xs, ∀ {s b s'}, keeps s → (f x).run s = .ok (b, s') → keeps s' ∧
      leads s s' ∧ known s' x b)
    {ys : List β} (hs : keeps s) (h : (xs.mapM f).run s = .ok (ys, s')) :
    keeps s' ∧ leads s s' ∧ List.Forall₂ (known s') xs ys := by
  induction xs generalizing s ys with
  | nil =>
    rw [List.mapM_nil, run_pure_eq_ok] at h
    obtain ⟨rfl, rfl⟩ := h
    exact ⟨hs, hrefl _, .nil⟩
  | cons x xs ih =>
    rw [List.mapM_cons, run_bind_eq_ok] at h
    obtain ⟨y, s₁, hx, h⟩ := h
    obtain ⟨hs₁, hlead₁, hy⟩ := hstep x (by simp) hs hx
    rw [run_bind_eq_ok] at h
    obtain ⟨ys', s₂, hxs, h⟩ := h
    rw [run_pure_eq_ok] at h
    obtain ⟨rfl, rfl⟩ := h
    obtain ⟨hs₂, hlead₂, hys⟩ := ih (fun x' hx' => hstep x' (by simp [hx'])) hs₁ hxs
    exact ⟨hs₂, htrans hlead₁ hlead₂, .cons (hmono hlead₂ hy) hys⟩

/-- A loop whose body always goes on keeps what each round keeps, stated with what is still to
come. -/
theorem run_forIn_eq_ok {f : α → PUnit → LiftM (ForInStep PUnit)} (keeps : List α → State → Prop)
    (hstep : ∀ {x rest s r s'}, keeps (x :: rest) s → (f x ⟨⟩).run s = .ok (r, s') → r = .yield ⟨⟩ ∧
      keeps rest s')
    {xs : List α} {u : PUnit} (hs : keeps xs s) (h : (forIn xs PUnit.unit f).run s = .ok (u, s')) :
    keeps [] s' := by
  induction xs generalizing s with
  | nil =>
    rw [List.forIn_nil, run_pure_eq_ok] at h
    exact h.2 ▸ hs
  | cons x rest ih =>
    rw [List.forIn_cons, run_bind_eq_ok] at h
    obtain ⟨r, s₁, hx, h⟩ := h
    obtain ⟨rfl, hs₁⟩ := hstep hs hx
    exact ih hs₁ h

theorem exists_run_mapM {f : α → LiftM β} (keeps : State → Prop) {xs : List α}
    (hstep : ∀ x ∈ xs, ∀ s, keeps s → ∃ y s', (f x).run s = .ok (y, s') ∧ keeps s') (hs : keeps s) :
    ∃ ys s', (xs.mapM f).run s = .ok (ys, s') ∧ keeps s' := by
  induction xs generalizing s with
  | nil => exact ⟨[], s, by rw [List.mapM_nil, run_pure_eq_ok]; exact ⟨rfl, rfl⟩, hs⟩
  | cons x xs ih =>
    obtain ⟨y, s₁, hx, hs₁⟩ := hstep x List.mem_cons_self s hs
    obtain ⟨ys, s₂, hxs, hs₂⟩ := ih (fun x' hx' => hstep x' (List.mem_cons_of_mem _ hx')) hs₁
    refine ⟨y :: ys, s₂, ?_, hs₂⟩
    rw [List.mapM_cons]
    exact run_bind_eq_ok.2 ⟨y, s₁, hx, run_bind_eq_ok.2 ⟨ys, s₂, hxs, rfl⟩⟩

theorem exists_run_forIn {f : α → PUnit → LiftM (ForInStep PUnit)} (keeps : List α → State → Prop)
    (hstep : ∀ {x rest s}, keeps (x :: rest) s → ∃ s', (f x ⟨⟩).run s = .ok (.yield ⟨⟩, s') ∧
      keeps rest s')
    {xs : List α} (hs : keeps xs s) :
    ∃ s', (forIn xs PUnit.unit f).run s = .ok (⟨⟩, s') ∧ keeps [] s' := by
  induction xs generalizing s with
  | nil => exact ⟨s, by rw [List.forIn_nil, run_pure_eq_ok]; exact ⟨rfl, rfl⟩, hs⟩
  | cons x rest ih =>
    obtain ⟨s₁, hx, hs₁⟩ := hstep hs
    obtain ⟨s₂, hrest, hs₂⟩ := ih hs₁
    refine ⟨s₂, ?_, hs₂⟩
    rw [List.forIn_cons]
    exact run_bind_eq_ok.2 ⟨_, s₁, hx, hrest⟩

/-! ## Small actions -/

theorem run_modifyState (b : BlockId) (f : BlockState → BlockState) :
    (modifyState b f).run s = .ok ((), { s with blocks := s.blocks.modify b f }) := rfl

theorem run_modifyBody (f : Body → Body) :
    (modifyBody f).run s = .ok ((), { s with body := f s.body }) := rfl

theorem run_newValue (type : ValueType) :
    (newValue type).run s = .ok (s.body.valueCount, { s with body := s.body.addValue type }) := rfl

theorem blockState_modify (b c : BlockId) (f : BlockState → BlockState) (body : Body) :
    blockState { body, blocks := s.blocks.modify b f } c =
      if b = c ∧ c < s.blocks.size then f (blockState s c) else blockState s c := by
  simp only [blockState, Table.getD_modify]

end BytecodeOpt.Ssa.Lift
