import BytecodeOpt.Proofs.RegisterCode.Execution
import BytecodeOpt.RegisterCode.Cleanup

/-!
# Moves and loads that change nothing

Inside a block it is known of some registers that they hold the same, or a constant.  Whatever is
known holds when control gets there, so a move or a load is dropped only where it would leave
everything as it is.
-/

namespace BytecodeOpt

namespace Execution

variable {V W : Type}

/-- A constant that has been loaded stays loaded.  From then on a load of it gives the same value
again and does nothing else. -/
structure Host.Retains (host : Host V W) (loaded : W → Constant → V → Prop) : Prop where
  load : ∀ {w w' value v}, host.performs w (.const value) [] (.completes v) w' → loaded w' value v
  keep : ∀ {w w' value v action args outcome}, loaded w value v →
    host.performs w action args outcome w' →
    loaded w' value v
  again : ∀ {w value v}, loaded w value v → ∀ outcome w',
    host.performs w (.const value) [] outcome w' ↔ outcome = .completes v ∧ w' = w

/-- Worlds only get more constants. -/
theorem Host.Retains.loaded_of_runs {host : Host V W} {loaded : W → Constant → V → Prop}
    (h : host.Retains loaded)
    {args : Nat → V} {w w' : W} {m : Memory V} {e : Effect} {seen : List (Observation V)}
    {exit : Exit V} (hruns : e.Runs host args w m seen w' exit) {value : Constant} {v : V}
    (hloaded : loaded w value v) :
    loaded w' value v := by
  cases hruns with
  | completes _ hperforms => exact h.keep hloaded hperforms
  | raises _ hperforms => exact h.keep hloaded hperforms
  | _ => exact hloaded

/-- Operations run one after the other, until they are done or one of them sends control
elsewhere. -/
inductive RunsThrough (host : Host V W) (args : Nat → V) :
    List Op → W → Memory V → List (Executed V) → W → Memory V → Exit V → Prop where
  | done {w : W} {m : Memory V} : RunsThrough host args [] w m [] w m (.next none)
  | next {op : Op} {ops : List Op} {w w₁ w' : W} {m m' : Memory V} {seen : List (Observation V)}
      {value : Option V} {rest : List (Executed V)} {exit : Exit V} :
      op.registerEffect.Runs host args w m seen w₁ (.next value) →
      RunsThrough host args ops w₁ (m.after op.registerEffect value) rest w' m' exit →
      RunsThrough host args (op :: ops) w m (⟨op, m, seen⟩ :: rest) w' m' exit
  | leave {op : Op} {ops : List Op} {w w' : W} {m : Memory V} {seen : List (Observation V)}
      {exit : Exit V} :
      op.registerEffect.Runs host args w m seen w' exit → (∀ value, exit ≠ .next value) →
      RunsThrough host args (op :: ops) w m [⟨op, m, seen⟩] w' m exit

end Execution

open Execution

namespace Op

def isTransfer : Op → Bool
  | .move .. | .const .. => true
  | _ => false

theorem dest?_of_registerEffect {op : Op} {r : Nat} (h : op.registerEffect.dest? = some r) :
    op.dest?.map RegisterCode.register = some r := by
  cases op with
  | argument dest index => cases h
  | _ => exact h

end Op

namespace RegisterCode

variable {V W : Type} {host : Host V W} {args : Nat → V} {loaded : W → Constant → V → Prop}
  {k : Known} {op : Op}
  {w w' : W} {m m' : Memory V} {seen : List (Observation V)} {value : Option V} {exit : Exit V}

namespace Known

structure Holds (loaded : W → Constant → V → Prop) (k : Known) (w : W) (m : Memory V) : Prop where
  constants : ∀ r value, (r, value) ∈ k.constants → loaded w value (m.store r)
  copies : ∀ dest source, (dest, source) ∈ k.copies → m.store dest = m.store source

theorem holds_empty (w : W) (m : Memory V) : Holds loaded {} w m :=
  ⟨fun _ _ h => absurd h List.not_mem_nil, fun _ _ h => absurd h List.not_mem_nil⟩

theorem after_of_not_transfer (k : Known) (h : ¬ op.isTransfer = true) :
    k.after op = op.dest?.elim k fun dest => k.clobber (register dest) := by
  cases op with
  | move dest source => exact absurd rfl h
  | const dest value => exact absurd rfl h
  | invoke _ _ _ dest | invokeCustom _ _ dest | filledNewArray dest _ _ => cases dest <;> rfl
  | _ => rfl

namespace Holds

variable (h : Holds loaded k w m)
include h

theorem eq_of_areEqual {a b : Reg} (hequal : k.areEqual a b = true) : m.store a = m.store b := by
  simp only [areEqual, Bool.or_eq_true, decide_eq_true_eq] at hequal
  rcases hequal with hab | hba
  · exact h.copies a b (Table.mem_of_lookup hab)
  · exact (h.copies b a (Table.mem_of_lookup hba)).symm

/-- What does not mention a register survives when only that register changes. -/
theorem clobber {r : Reg} (hstore : ∀ x ≠ r, m'.store x = m.store x)
    (hloaded : ∀ value v, loaded w value v → loaded w' value v) :
    Holds loaded (k.clobber r) w' m' where
  constants x value hx := by
    simp only [Known.clobber, List.mem_filter, decide_eq_true_eq] at hx
    rw [hstore x hx.2]
    exact hloaded _ _ (h.constants x value hx.1)
  copies dest source hcopy := by
    simp only [Known.clobber, List.mem_filter, Bool.and_eq_true, decide_eq_true_eq] at hcopy
    rw [hstore dest hcopy.2.1, hstore source hcopy.2.2]
    exact h.copies dest source hcopy.1

/-- A redundant operation can run in one way only, and that leaves everything as it is. -/
theorem runs_of_redundant (args : Nat → V) (hretains : host.Retains loaded)
    (hredundant : k.isRedundant op = true) :
    ∃ value, m.after op.registerEffect value = m ∧ ∀ w' exit,
      (∃ seen, op.registerEffect.Runs host args w m seen w' exit) ↔ w' = w ∧
        exit = .next value := by
  cases op with
  | move dest source =>
    have hequal : m.store (register dest) = m.store (register source) := by
      simp only [isRedundant, Bool.or_eq_true, decide_eq_true_eq] at hredundant
      rcases hredundant with heq | hequal
      · rw [heq]
      · exact h.eq_of_areEqual hequal
    refine ⟨some (m.store (register source)), ?_, fun w' exit => ⟨?_, ?_⟩⟩
    · rw [m.after_of_dest rfl, ← hequal, Function.update_eq_self]
    · rintro ⟨seen, hruns⟩
      cases hruns
      exact ⟨rfl, rfl⟩
    · rintro ⟨rfl, rfl⟩
      exact ⟨_, .copy⟩
  | const dest constant =>
    simp only [isRedundant, decide_eq_true_eq] at hredundant
    have hagain := hretains.again (h.constants _ _ (Table.mem_of_lookup hredundant))
    refine ⟨some (m.store (register dest)), ?_, fun w' exit => ⟨?_, ?_⟩⟩
    · rw [m.after_of_dest rfl, Function.update_eq_self]
    · rintro ⟨seen, hruns⟩
      cases hruns with
      | completes _ hperforms =>
        obtain ⟨houtcome, hw⟩ := (hagain _ _).1 hperforms
        cases houtcome
        exact ⟨hw, rfl⟩
      | raises _ hperforms => cases ((hagain _ _).1 hperforms).1
    · rintro ⟨rfl, rfl⟩
      exact ⟨_, .completes (by simp) ((hagain _ _).2 ⟨rfl, rfl⟩)⟩
  | _ => simp [isRedundant] at hredundant

theorem after (hretains : host.Retains loaded)
    (hruns : op.registerEffect.Runs host args w m seen w' (.next value)) :
    Holds loaded (k.after op) w' (m.after op.registerEffect value) := by
  have hloaded : ∀ constant v, loaded w constant v → loaded w' constant v := fun _ _ =>
    hretains.loaded_of_runs hruns
  have hrest : ∀ dest, op.dest? = some dest →
      Holds loaded (k.clobber (register dest)) w' (m.after op.registerEffect value) := by
    intro dest hdest
    refine h.clobber (fun x hx => m.store_after_of_ne (fun heq => hx ?_) value) hloaded
    have hsome := Op.dest?_of_registerEffect heq
    rw [hdest, Option.map_some] at hsome
    exact (Option.some.inj hsome).symm
  by_cases htransfer : op.isTransfer = true
  · cases op with
    | move dest source =>
      have hrest := hrest dest rfl
      cases hruns
      refine ⟨fun r constant hr => ?_, fun d s hcopy => ?_⟩
      · rcases List.mem_append.1 hr with hr | hr
        · obtain ⟨c, hc, heq⟩ := List.mem_map.1 hr
          cases heq
          rw [m.store_after_self rfl]
          exact hloaded _ _ (h.constants _ _ (Table.mem_of_lookup (Option.mem_toList.1 hc)))
        · exact hrest.constants r constant hr
      · rcases List.mem_cons.1 hcopy with heq | hcopy
        · cases heq
          by_cases hsame : register dest = register source
          · rw [hsame]
          · have hne : (Op.move dest source).registerEffect.dest? ≠ some (register source) :=
              fun heq =>
              hsame (Option.some.inj heq)
            rw [m.store_after_self rfl, m.store_after_of_ne hne]
        · exact hrest.copies d s hcopy
    | const dest constant =>
      have hrest := hrest dest rfl
      cases hruns with
      | completes _ hperforms =>
        refine ⟨fun r c hr => ?_, hrest.copies⟩
        rcases List.mem_cons.1 hr with heq | hr
        · cases heq
          rw [m.store_after_self rfl]
          exact hretains.load hperforms
        · exact hrest.constants r c hr
    | _ => cases htransfer
  · rw [after_of_not_transfer k htransfer]
    cases hdest : op.dest? with
    | some dest => exact hrest dest hdest
    | none =>
      have hnone : op.registerEffect.dest? = none := by
        cases heq : op.registerEffect.dest? with
        | none => rfl
        | some r => simpa [hdest] using Op.dest?_of_registerEffect heq
      refine ⟨fun r constant hr => ?_, fun d s hcopy => ?_⟩
      · rw [m.store_after_of_no_dest hnone]
        exact hloaded _ _ (h.constants r constant hr)
      · rw [m.store_after_of_no_dest hnone]
        exact h.copies d s hcopy

end Holds

end Known

/-! ## Blocks -/

/-- One execution of a block is another one, less some moves and loads. -/
def Matches (all kept : List (Executed V)) : Prop :=
  kept.Sublist all ∧ kept.filter (!·.op.isTransfer) = all.filter (!·.op.isTransfer)

theorem Matches.cons {all kept : List (Executed V)} (h : Matches all kept) (x : Executed V) :
    Matches (x :: all) (x :: kept) :=
  ⟨h.1.cons_cons x, by rw [List.filter_cons, List.filter_cons, h.2]⟩

theorem Matches.drop {all kept : List (Executed V)} (h : Matches all kept) {x : Executed V}
    (hx : x.op.isTransfer = true) : Matches (x :: all) kept :=
  ⟨h.1.cons x, by rw [List.filter_cons, hx, h.2]; rfl⟩

theorem isTransfer_of_redundant (h : k.isRedundant op = true) : op.isTransfer = true := by
  cases op with
  | move dest source => rfl
  | const dest value => rfl
  | _ => cases h

theorem runsThrough_filterOps (hretains : host.Retains loaded) {ops : List Op}
    {all : List (Executed V)}
    (hknown : k.Holds loaded w m) (hruns : RunsThrough host args ops w m all w' m' exit) :
    ∃ kept, RunsThrough host args (k.filterOps ops) w m kept w' m' exit ∧ Matches all kept := by
  induction hruns generalizing k with
  | done => exact ⟨[], .done, List.Sublist.refl _, rfl⟩
  | next hfirst hrest ih =>
    rw [Known.filterOps]
    split
    · rename_i hredundant
      obtain ⟨value, hsame, honly⟩ := hknown.runs_of_redundant args hretains hredundant
      obtain ⟨rfl, heq⟩ := (honly _ _).1 ⟨_, hfirst⟩
      cases heq
      rw [hsame] at ih
      obtain ⟨kept, hkept, hmatches⟩ := ih hknown
      exact ⟨kept, hkept, hmatches.drop (isTransfer_of_redundant hredundant)⟩
    · obtain ⟨kept, hkept, hmatches⟩ := ih (hknown.after hretains hfirst)
      exact ⟨_, .next hfirst hkept, hmatches.cons _⟩
  | leave hfirst hexit =>
    rw [Known.filterOps, if_neg]
    · exact ⟨_, .leave hfirst hexit, List.Sublist.refl _, rfl⟩
    · intro hredundant
      obtain ⟨value, -, honly⟩ := hknown.runs_of_redundant args hretains hredundant
      exact hexit value ((honly _ _).1 ⟨_, hfirst⟩).2

theorem runsThrough_of_filterOps (hretains : host.Retains loaded) {ops : List Op}
    {kept : List (Executed V)} (hknown : k.Holds loaded w m)
    (hruns : RunsThrough host args (k.filterOps ops) w m kept w' m' exit) :
    ∃ all, RunsThrough host args ops w m all w' m' exit ∧ Matches all kept := by
  induction ops generalizing k w m kept with
  | nil =>
    cases hruns
    exact ⟨[], .done, List.Sublist.refl _, rfl⟩
  | cons op ops ih =>
    rw [Known.filterOps] at hruns
    split at hruns
    · rename_i hredundant
      obtain ⟨value, hsame, honly⟩ := hknown.runs_of_redundant args hretains hredundant
      obtain ⟨seen, hfirst⟩ := (honly w (.next value)).2 ⟨rfl, rfl⟩
      obtain ⟨all, hall, hmatches⟩ := ih hknown hruns
      rw [← hsame] at hall
      exact ⟨_, .next hfirst hall, hmatches.drop (isTransfer_of_redundant hredundant)⟩
    · cases hruns with
      | next hfirst hrest =>
        obtain ⟨all, hall, hmatches⟩ := ih (hknown.after hretains hfirst) hrest
        exact ⟨_, .next hfirst hall, hmatches.cons _⟩
      | leave hfirst hexit => exact ⟨_, .leave hfirst hexit, List.Sublist.refl _, rfl⟩

/-- Two blocks are left in the same ways.  On the way the second executes the operations of the
first, each on the same memory, but may spare moves and loads. -/
structure RunAlike (host : Host V W) (args : Nat → V) (b c : RegisterBlock) : Prop where
  id : c.id = b.id
  handlers : c.handlers = b.handlers
  forth : ∀ {w m all w' m' exit}, RunsThrough host args b.ops w m all w' m' exit →
    ∃ kept, RunsThrough host args c.ops w m kept w' m' exit ∧ Matches all kept
  back : ∀ {w m kept w' m' exit}, RunsThrough host args c.ops w m kept w' m' exit →
    ∃ all, RunsThrough host args b.ops w m all w' m' exit ∧ Matches all kept

/-- From whatever the registers hold, every block runs as it did before. -/
theorem peephole_blocks_run_alike (code : RegisterCode) {V W : Type} (host : Host V W)
    (loaded : W → Constant → V → Prop) (hretains : host.Retains loaded) (args : Nat → V) :
    List.Forall₂ (RunAlike host args) code.blocks code.peephole.1.blocks := by
  refine List.forall₂_map_right_iff.2
    (List.forall₂_same.2 fun b _ => ⟨rfl, rfl, fun hruns => ?_, fun hruns => ?_⟩)
  · exact runsThrough_filterOps hretains (Known.holds_empty _ _) hruns
  · exact runsThrough_of_filterOps hretains (Known.holds_empty _ _) hruns

/-- Moves a register to itself, to another one and back, and loads a constant twice. -/
def shuttle : RegisterCode where
  method := ⟨⟨"p.A"⟩, "f", ⟨.int, [.int]⟩⟩
  registers := 3
  ins := 1
  blocks :=
    [⟨0, [.move 0 0, .const 1 (.int 3), .move 2 0, .const 1 (.int 3), .move 0 2, .ret (some 0)],
    []⟩]

def literals : Host Constant Unit where
  performs w action _ outcome w' :=
    w' = w ∧ outcome = match action with
      | .const value => .completes value
      | _ => .completes .null
  holds _ _ _ := false
  isKey _ _ := false
  isInstance _ _ := false

theorem peephole_blocks_run_alike_shuttle :
    literals.Retains (fun _ value v => v = value) ∧ shuttle.peephole.2 = 3 ∧
      List.Forall₂ (RunAlike literals fun _ => .null) shuttle.blocks shuttle.peephole.1.blocks := by
  have hretains : literals.Retains fun _ value v => v = value := by
    refine ⟨fun hperforms => ?_, fun hloaded _ => hloaded, fun hloaded outcome w' => ?_⟩
    · exact Outcome.completes.inj hperforms.2
    · subst hloaded
      exact And.comm
  exact ⟨hretains, by decide, peephole_blocks_run_alike shuttle literals _ hretains _⟩

end RegisterCode

end BytecodeOpt
