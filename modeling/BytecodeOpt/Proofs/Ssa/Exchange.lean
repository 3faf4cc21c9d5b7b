import BytecodeOpt.Proofs.Ssa.Compaction

/-!
# Operations exchanged in place

Operations give way to others that define the same, at the same place.  Edges may go with them, and
phis then lose the operands that came over them.  If an operation and the one in its place can do
the same wherever a run gets, both bodies behave alike.
-/

namespace BytecodeOpt

open Execution

namespace Ssa.Body

/-- `h` says what stands in the place of an operation. -/
structure Exchanged (body body' : Body) (h : BlockId → Op → Op) : Prop where
  pared : Pared body body' fun b op => some (h b op)
  dest : ∀ b, ∀ op ∈ (body.block b).ops, (h b op).dest? = op.dest?
  reads : ∀ b k op, body.Reached b → (body.block b).ops[k]? = some op → ∀ v ∈ (h b op).uses,
    body.Dominated b k v
  phiDests : ∀ b, (body'.block b).phiDests = (body.block b).phiDests
  phis : ∀ b, body'.Reached b → List.Forall₂ (fun phi phi' : Phi => phi'.dest = phi.dest ∧
    phi'.operands.zip (body'.block b).preds ⊆ phi.operands.zip (body.block b).preds)
      (body.block b).phis (body'.block b).phis

/-- Operations are exchanged and no edge goes. -/
theorem Sound.exchanged {body body' : Body} {h : BlockId → Op → Op} (hs : body.Sound)
    (hterminated : ∀ b < body.blockCount, (body.block b).Terminated)
    (hcount : body'.blockCount = body.blockCount) (hvalues : body'.valueCount = body.valueCount)
    (hblock : ∀ b, body'.block b = { body.block b with ops := (body.block b).ops.map (h b) })
    (hstands : ∀ b, ∀ op ∈ (body.block b).ops, (h b op).StandsFor op)
    (hdest : ∀ b, ∀ op ∈ (body.block b).ops, (h b op).dest? = op.dest?)
    (htargets : ∀ b, ∀ op ∈ (body.block b).ops, op.isTerminator = true →
      (h b op).targets = op.targets)
    (hreads : ∀ b k op, body.Reached b → (body.block b).ops[k]? = some op → ∀ v ∈ (h b op).uses,
      body.Dominated b k v) :
    Exchanged body body' h ∧ body'.graph = body.graph := by
  have hops : ∀ b, (body'.block b).ops = (body.block b).ops.filterMap fun op =>
      some (h b op) := fun b => by
    rw [hblock, List.filterMap_eq_map']
  have hnormal : ∀ b, (body'.block b).normalSuccessors = (body.block b).normalSuccessors :=
    fun b => by
    by_cases hb : b < body.blockCount
    · refine (hterminated b hb).normalSuccessors_filterMap (hops b) fun op hop hterm =>
        ⟨_, rfl, ?_, htargets b op hop hterm⟩
      rw [(hstands b op hop).isTerminator, hterm]
    · rw [hblock, block_of_le (Nat.le_of_not_lt hb)]
      rfl
  obtain ⟨hpared, hgraph⟩ := pared_of_edges hs.block hcount hvalues hops (fun b => by rw [hblock])
    (fun b => by rw [hblock])
    (fun b => by rw [hblock]; exact .refl _) (fun b phi hphi => ⟨phi, by rwa [hblock] at hphi, rfl⟩)
    (fun b op hop op' heq => Option.some.inj heq ▸ hstands b op hop) (fun _ _ _ _ => rfl) hnormal
  refine ⟨⟨hpared, hdest, hreads, fun b => by rw [hblock]; rfl, fun b _ => ?_⟩, hgraph⟩
  rw [hblock]
  exact List.forall₂_same.2 fun phi _ => ⟨rfl, List.Subset.refl _⟩

namespace Exchanged

variable {body body' : Body} {h : BlockId → Op → Op} {b p t : BlockId} {k : Nat} {v : Operand}
  {op : Op} {site : DefSite}

variable (hex : Exchanged body body' h)
include hex

theorem ops (b : BlockId) : (body'.block b).ops = (body.block b).ops.map (h b) := by
  rw [hex.pared.ops, List.filterMap_eq_map']

theorem keeps (v : Operand) : hex.pared.Keeps v where
  phi := fun b hv => by rwa [hex.phiDests]
  op := fun b op hop hdest => ⟨_, rfl, (hex.dest b op hop).trans hdest⟩

theorem definedAt_iff : body'.DefinedAt v site ↔ body.DefinedAt v site := by
  cases site with
  | phi b => exact and_congr (by rw [hex.pared.count]) (by rw [hex.phiDests])
  | op b i =>
    refine and_congr (by rw [hex.pared.count]) ?_
    rw [hex.ops, List.getElem?_map]
    constructor
    · rintro ⟨op', hop', hdest⟩
      obtain ⟨op, hop, rfl⟩ := Option.map_eq_some_iff.1 hop'
      exact ⟨op, hop, (hex.dest b op (List.mem_of_getElem? hop)) ▸ hdest⟩
    · rintro ⟨op, hop, hdest⟩
      exact ⟨h b op, by rw [hop, Option.map_some],
        (hex.dest b op (List.mem_of_getElem? hop)).trans hdest⟩

variable (hs : body.Sound)
include hs

theorem sound : body'.Sound := by
  refine hex.pared.sound hs (fun b hb phi' hphi' e he hpred => ?_) fun b hb k op op' hop
    hop' v hv => ?_
  · obtain ⟨phi, hphi, -, hsub⟩ := Fallible.exists_left_of_forall₂ (hex.phis b hb) hphi'
    exact hex.pared.dominated hpred (hs.phi b (hex.pared.reached hb) phi hphi e (hsub he)
      (hex.pared.reached hpred))
      (hex.keeps e.1) (hex.pared.place_exitPosition_le hs hpred b)
  · obtain rfl := Option.some.inj hop'
    exact hex.pared.dominated hb (hex.reads b k op (hex.pared.reached hb) hop v hv) (hex.keeps v)
      (Nat.le_refl _)

theorem picks_eq (ht : body'.Reached t) (hp : p ∈ (body'.block t).preds) (x : Operand) :
    body'.picks p t x = body.picks p t x := by
  have ht' := hex.pared.reached ht
  have hnodup := hs.phis_nodup t ht'
  by_cases hx : x ∈ (body.block t).phiDests
  · obtain ⟨phi, hphi, rfl⟩ := List.mem_map.1 hx
    obtain ⟨phi', hphi', hdest, hsub⟩ := Fallible.exists_right_of_forall₂ (hex.phis t ht) hphi
    obtain ⟨o, ho⟩ := Block.incoming?_of_mem hp (hex.pared.arity t ht phi' hphi')
    have ho' := (Block.incoming?_eq_some_iff (hs.block t ht').preds_nodup).2
      (hsub (Block.mem_zip_of_incoming? ho))
    rw [picks_of_phi hnodup hphi ho', ← hdest, picks_of_phi (by rwa [hex.phiDests]) hphi' ho]
  · rw [picks_of_not_phi hx, picks_of_not_phi (by rwa [hex.phiDests])]

/-! ## Running -/

variable {V W ε : Type} {host : Host V W} {args : Nat → V} {w : W} {m : Memory V}
  {view : Observation V → Option ε} {holds : BlockId → Nat → (Operand → V) → Prop}

/-- Both are at the same place with the same memory, of which something is known there. -/
def Related (body' : Body) (holds : BlockId → Nat → (Operand → V) → Prop) (_ : Nat)
    (a a' : Option (Config (BlockId × Nat) V W)) : Prop :=
  (a = none ∧ a' = none) ∨
    ∃ b k w m, body'.Reached b ∧ holds b k m.store ∧ a = some ⟨(b, k), w, m⟩ ∧
      a' = some ⟨(b, k), w, m⟩

/-- What two effects do in a memory, as far as it can be seen, is the same. -/
def Alike (host : Host V W) (args : Nat → V) (view : Observation V → Option ε) (m : Memory V)
    (e e' : Effect) : Prop :=
  ∀ w w' exit shown, (∃ seen, e.Runs host args w m seen w' exit ∧ seen.filterMap view = shown) ↔
    ∃ seen, e'.Runs host args w m seen w' exit ∧ seen.filterMap view = shown

variable (henter : ∀ b k t store, body.Reached b → body.LeavesAt b k t → holds b k store →
    holds t 0 fun v => store (body.picks b t v))
include henter

theorem related_enter (hb : body'.Reached b) (hleaves : body.LeavesAt b k t)
    (hleaves' : body'.LeavesAt b k t) (hholds : holds b k m.store) :
    Related body' holds 0 (some (body.routine.enter (b, k) t w m))
      (some (body'.routine.enter (b, k) t w m)) := by
  obtain ⟨ht, hpred⟩ := (hex.sound hs).edge_of_leavesAt hb hleaves'
  refine .inr ⟨t, 0, w, _, ht, henter b k t m.store (hex.pared.reached hb) hleaves hholds, rfl, ?_⟩
  simp only [Routine.enter, routine, hex.picks_eq hs ht hpred]

variable (hnext : ∀ b k op w w' seen m value, body.Reached b → (body.block b).ops[k]? = some op →
  holds b k m.store →
    op.effect.Runs host args w m seen w' (.next value) →
      holds b (k + 1) (m.after op.effect value).store)
  (halike : ∀ b k op m, body.Reached b → (body.block b).ops[k]? = some op → holds b k m.store →
    Alike host args view m op.effect (h b op).effect)
include hnext halike

theorem lockstep : Lockstep ((body.routine.Step host args).viewing view)
    ((body'.routine.Step host args).viewing view) (Related body' holds) := by
  rintro n a a' (⟨rfl, rfl⟩ | ⟨b, k, w, m, hb, hholds, rfl, rfl⟩)
  · refine .inr (.inr ⟨fun _ _ hstep => ?_, fun _ _ hstep => ?_⟩) <;> obtain ⟨_, hstep, -⟩ :=
      hstep <;> cases hstep
  have hb' := hex.pared.reached hb
  have hget : (body'.block b).ops[k]? = (body.block b).ops[k]?.map (h b) := by
    rw [hex.ops, List.getElem?_map]
  cases hop : (body.block b).ops[k]? with
  | none =>
    rw [hop, Option.map_none] at hget
    exact .inr (.inr ⟨fun _ _ ⟨_, hstep, _⟩ => absurd hstep (not_step_of_getElem? hop),
      fun _ _ ⟨_, hstep, _⟩ => absurd hstep (not_step_of_getElem? hget)⟩)
  | some op =>
    rw [hop, Option.map_some] at hget
    have he := effect?_routine hop
    have he' := effect?_routine hget
    have hsame := halike b k op m hb' hop hholds
    have hjoins : ∀ {seen seen' w' exit}, op.effect.Runs host args w m seen w' exit →
        (h b op).effect.Runs host args w m seen' w' exit →
        Joins body.routine body'.routine (Related body' holds) (b, k) (b, k) op.effect
          (h b op).effect w' w' m m exit exit := by
      intro seen seen' w' exit hrun hrun'
      cases exit with
      | next value =>
        refine .next (n := 0) (.inr ⟨b, k + 1, w', _, hb, hnext b k op w w' seen m value hb' hop
          hholds hrun, rfl, ?_⟩)
        have hdest : (h b op).effect.dest? = op.effect.dest? := by
          simp [hex.dest b op (List.mem_of_getElem? hop)]
        rw [m.after_congr hdest]
        rfl
      | jump t =>
        exact .jump (hex.related_enter hs henter hb (leavesAt_of_jump hop hrun)
          (leavesAt_of_jump hget hrun') hholds)
      | raise x =>
        have hhandlers : body'.routine.handlers (b, k) = (body.block b).handlers :=
          hex.pared.handlers b
        refine .raise ?_
        rw [hhandlers]
        refine List.forall₂_same.2 fun handler hh => ⟨rfl, 0, ?_⟩
        have hh' : handler ∈ (body'.block b).handlers := by rwa [hex.pared.handlers]
        exact hex.related_enter hs henter (m := { m with caught := x }) hb
          (leavesAt_of_raise hop hrun hh)
          (leavesAt_of_raise hget hrun' hh') hholds
      | halt => exact .halt
    refine .inr (.inr ⟨matched_of_runs he he' ⟨0, .inl ⟨rfl, rfl⟩⟩ fun seen w' exit hrun => ?_,
      matched_of_runs he' he ⟨0, .inl ⟨rfl, rfl⟩⟩ fun seen w' exit hrun => ?_⟩)
    · obtain ⟨seen', hrun', hview⟩ := (hsame w w' exit _).1 ⟨seen, hrun, rfl⟩
      exact ⟨seen', w', exit, hrun', hview, hjoins hrun hrun'⟩
    · obtain ⟨seen', hrun', hview⟩ := (hsame w w' exit _).2 ⟨seen, hrun, rfl⟩
      exact ⟨seen', w', exit, hrun', hview, (hjoins hrun' hrun).symm⟩

end Exchanged

end Ssa.Body

end BytecodeOpt
