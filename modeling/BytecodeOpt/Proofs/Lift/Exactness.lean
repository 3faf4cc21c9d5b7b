import BytecodeOpt.Proofs.Lift.Behaviour
import BytecodeOpt.Proofs.Lift.Totality

/-!
# Which code is lifted

Code that is in order otherwise is lifted exactly if it reads nothing that some way through it has
left unwritten.
-/

namespace BytecodeOpt.Ssa

/-! ## Every phi has something to pick -/

theorem Body.Available.imp {body : Body} {inScope inScope' : BlockId → Operand → Prop}
    {b : BlockId} {k : Nat}
    {v : Operand} (h : body.Available inScope b k v) (himp : inScope b v → inScope' b v) :
    body.Available inScope' b k v :=
  Or.imp_left himp h

/-- If a phi could only pick itself, it would be in scope where its block is entered. -/
theorem Body.WellFormed.exists_operand_ne {body : Body} (h : body.WellFormed) {b : BlockId}
    (hb : b < body.blockCount)
    {phi : Phi} (hphi : phi ∈ (body.block b).phis) : ∃ o ∈ phi.operands, o ≠ phi.dest := by
  by_contra hnone
  simp only [not_exists, not_and, not_not] at hnone
  obtain ⟨inScope, hs⟩ := h.in_scope
  have himp : ∀ c v, inScope c v → inScope c v ∨ (c = b ∧ v = phi.dest) := fun _ _ => .inl
  have hscoped : body.Scoped body.atEnd fun c v => inScope c v ∨ (c = b ∧ v = phi.dest) := by
    constructor
    case entry =>
      rintro v (hv | ⟨rfl, -⟩)
      · exact hs.entry v hv
      · simp [h.entry_phis] at hphi
    case edge =>
      rintro p hp t ht v (hv | ⟨rfl, rfl⟩)
      · exact (hs.edge p hp t ht v hv).imp (himp p v)
      · obtain ⟨o, ho⟩ := Block.incoming?_of_mem ((h.mem_preds t hb p).2 ⟨hp, ht⟩)
          (h.arity t hb phi hphi)
        have hzip := Block.mem_zip_of_incoming? ho
        obtain rfl := hnone o (List.of_mem_zip hzip).1
        exact (hs.phi t hb phi hphi _ hzip).imp (himp p phi.dest)
    case use => exact fun c hc i op hop v hv => (hs.use c hc i op hop v hv).imp (himp c v)
    case phi => exact fun c hc q hq e he => (hs.phi c hc q hq e he).imp (himp e.2 e.1)
  exact h.not_inScope hscoped hb (List.mem_append_left _ (List.mem_map_of_mem hphi))
    (.inr ⟨rfl, rfl⟩)

namespace Lift

variable {body : Body} {r : Renaming}

theorem Trivial.choices_ne_nil (h : Trivial (body.blocks.toList.flatMap Block.phis) r)
    (hwf : body.WellFormed) {phi : Phi} (hphi : phi ∈ body.blocks.toList.flatMap Block.phis)
    (hkept : r.isRenamed phi.dest = false) :
    choices r phi ≠ [] := by
  obtain ⟨b, hb, hphi⟩ := mem_phis.1 hphi
  have hmem : { phi with operands := phi.operands.map r.resolve } ∈
      ((body.rewrite r.resolve).block b).phis := by
    rw [Body.block_rewrite]
    refine List.mem_map.2 ⟨phi, List.mem_filter.2 ⟨hphi, ?_⟩, rfl⟩
    simpa using h.resolve_eq_self_iff.2 hkept
  obtain ⟨o, ho, hne⟩ := ((h.rewritable hwf).wellFormed_rewrite hwf.entry_phis).exists_operand_ne
    (by rw [Body.blockCount_rewrite]; exact hb) hmem
  obtain ⟨o', ho', rfl⟩ := List.mem_map.1 ho
  exact List.ne_nil_of_mem (mem_choices.2 ⟨⟨o', ho', rfl⟩, hne⟩)

section

variable (hwf : body.WellFormed)
include hwf

theorem exists_dropTrivial_eq_ok (h : Trivial (body.blocks.toList.flatMap Block.phis) r)
    {part : List Phi} (hsub : part ⊆ body.blocks.toList.flatMap Block.phis) :
    ∃ r', part.foldlM dropTrivial r = .ok r' := by
  induction part generalizing r with
  | nil => exact ⟨r, rfl⟩
  | cons phi rest ih =>
    obtain ⟨hphi, hrest⟩ := List.cons_subset.1 hsub
    obtain ⟨r₁, hdrop⟩ : ∃ r₁, dropTrivial r phi = .ok r₁ := by
      unfold dropTrivial
      split
      · exact ⟨r, rfl⟩
      · rename_i hkept
        split
        · rename_i hnil
          exact absurd hnil (h.choices_ne_nil hwf hphi (by simpa using hkept))
        · exact ⟨_, rfl⟩
        · exact ⟨_, rfl⟩
    obtain ⟨r', hfold⟩ := ih (h.drop (nodup_phiDests hwf.defined_nodup) hphi hdrop) hrest
    exact ⟨r', by rw [List.foldlM_cons, Fallible.bind_eq_ok]; exact ⟨r₁, hdrop, hfold⟩⟩

theorem exists_removeTrivialPhis_eq_ok : ∃ body', removeTrivialPhis body = .ok body' := by
  have hrounds : ∀ rounds r, Trivial (body.blocks.toList.flatMap Block.phis) r →
      ∃ r', trivialPhis (body.blocks.toList.flatMap Block.phis) rounds r = .ok r' := by
    intro rounds
    induction rounds with
    | zero => exact fun r _ => ⟨r, rfl⟩
    | succ rounds ih =>
      intro r hr
      obtain ⟨next, hfold⟩ := exists_dropTrivial_eq_ok hwf hr (List.Subset.refl _)
      have hnext := hr.round (nodup_phiDests hwf.defined_nodup) (List.Subset.refl _) hfold
      rw [trivialPhis]
      by_cases hsize : next.size = r.size
      · exact ⟨next, Fallible.bind_eq_ok.2 ⟨next, hfold, if_pos hsize⟩⟩
      · obtain ⟨r', hr'⟩ := ih next hnext
        exact ⟨r', Fallible.bind_eq_ok.2 ⟨next, hfold, by rw [if_neg hsize, hr']⟩⟩
  obtain ⟨r, hr⟩ := hrounds _ {} (trivial_empty _)
  unfold removeTrivialPhis
  exact Fallible.exists_bind_eq_ok ⟨r, hr⟩ fun _ => ⟨_, rfl⟩

end

end Lift

/-! ## Code that is in order -/

/-- What lifting asks of the code of a method, apart from what is read: the arguments have their
registers, control stays in the code, no handler is also gone on to, and results and exceptions are
moved where there are any. -/
structure Orderly (m : Method) (code : Code) : Prop where
  arguments : code.ins = m.argumentCount
  registers : code.ins ≤ code.registers
  nonempty : code.instructions ≠ []
  placed : ∃ layout, Layout.ofCode code = .ok layout ∧ Lift.Placed ⟨code, layout⟩

theorem wanted_initial (src : Lift.Source) (method : MethodId) :
    Lift.Wanted src (Lift.initial method src.layout) := by
  intro c e he
  rw [Lift.blockState_initial] at he
  cases he

theorem exists_liftCode_eq_ok {m : Method} {code : Code} (h : Orderly m code)
    (hdefined : code.Defined) :
    ∃ body, liftCode m code = .ok body := by
  obtain ⟨layout, hlayout, hplaced⟩ := h.placed
  have hsound := Layout.sound_of_ofCode h.nonempty hlayout
  have hl : Lift.Liftable ⟨code, layout⟩ (argumentTypes m) := { hplaced with
    sound := hsound, ins_eq := by rw [length_argumentTypes, h.arguments], ins_le := h.registers,
      defined := hdefined }
  have hprogress : Lift.Progress ⟨code, layout⟩ _ _ _ :=
    Lift.progress_initial hsound m.id (argumentTypes m)
  obtain ⟨done, hfill⟩ := Lift.exists_run_fillAll hl hprogress (wanted_initial ⟨code, layout⟩ m.id)
  have hcomplete := Lift.complete_of_fillAll hsound hprogress hfill
  obtain ⟨body, hbody⟩ := Lift.exists_removeTrivialPhis_eq_ok (hcomplete.wellFormed hsound)
  refine ⟨body, ?_⟩
  have hregisters : (code.ins ≠ m.argumentCount || code.registers < code.ins) = false := by
    simp [← h.arguments, h.registers]
  have hempty : code.instructions.isEmpty = false := by simpa using h.nonempty
  unfold liftCode
  simp only [hregisters, hempty, Bool.false_eq_true, if_false]
  exact Fallible.bind_eq_ok.2 ⟨layout, hlayout, Fallible.bind_eq_ok.2 ⟨((), done), hfill, hbody⟩⟩

/-- Code that is in order is lifted exactly if on every way to an instruction the registers it reads
were written or are arguments. -/
theorem lifts_iff_defined (m : Method) (code : Code) (hcode : m.code = some code)
    (hconcrete : m.isAbstractOrNative = false)
    (h : Orderly m code) : (∃ body, lift? m = .ok (some body)) ↔ code.Defined := by
  constructor
  · rintro ⟨body, hlift⟩
    obtain ⟨code', hcode', hlift⟩ := liftCode_of_lift? hlift
    rw [hcode, Option.some.injEq] at hcode'
    subst hcode'
    obtain ⟨layout, done, hsound, hcomplete, -⟩ := complete_of_liftCode hlift
    exact hcomplete.defined hsound (by rw [length_argumentTypes, h.arguments])
  · intro hdefined
    obtain ⟨body, hlift⟩ := exists_liftCode_eq_ok h hdefined
    refine ⟨body, ?_⟩
    unfold lift?
    simp only [hconcrete, hcode, hlift]
    rfl

def retryLayout : Layout where
  blocks := #[{ successors := [1] }, { stop := 1, successors := [2] },
    { start := 1, stop := 3, successors := [3, 5], handlers := [⟨none, 5⟩], throwing := some 1 },
    { start := 3, stop := 4, successors := [2, 4] }, { start := 4, stop := 5 },
    { start := 5, stop := 7 }]

theorem orderly_retry : Orderly retry retryCode := by
  refine ⟨by decide, by decide, by decide, retryLayout, by decide +kernel, ?_, ?_, ?_⟩
  · intro written index i _ hget reg hreg
    have hlt : index < 7 := (List.getElem?_eq_some_iff.1 hget).1
    interval_cases index <;> cases hget <;> cases hreg <;> decide
  · intro b k dest h
    rcases b with _ | _ | _ | _ | _ | _ | b <;> rcases k with _ | _ | k <;> cases h
    exact ⟨0, _, rfl, rfl, rfl⟩
  · intro b k dest h
    rcases b with _ | _ | _ | _ | _ | _ | b <;> rcases k with _ | _ | k <;> cases h
    exact ⟨by decide, by decide, by simp⟩

/-- The handler reads the register that the failing call was to write, and on every way there it was
written before. -/
theorem lifts_iff_defined_retry : Orderly retry retryCode ∧ retryCode.Defined := by
  refine ⟨orderly_retry, (lifts_iff_defined retry retryCode rfl rfl orderly_retry).1 ?_⟩
  obtain ⟨found, hlift, hfound⟩ := Fallible.exists_of_succeeds (x := lift? retry)
    (p := Option.isSome) (by decide +kernel)
  obtain ⟨body, rfl⟩ := Option.isSome_iff_exists.1 hfound
  exact ⟨body, hlift⟩

end BytecodeOpt.Ssa
