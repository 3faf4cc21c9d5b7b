import Mathlib.Logic.Function.Iterate
import Mathlib.Tactic.Choose

/-!
# Systems that run in lockstep

Two transition systems behave alike when every step of one that can be seen is a step of the other.
Either may take steps of its own in between, if nothing is seen of them and their number is bounded.
-/

namespace BytecodeOpt.Execution

abbrev System (σ ε : Type) := σ → List ε → σ → Prop

variable {σ τ υ ε : Type} {step : System σ ε} {step' : System τ ε} {step'' : System υ ε} {a a' : σ}
  {b : τ} {c : υ} {related : Nat → σ → τ → Prop} {n : Nat}

inductive Run (step : System σ ε) : σ → List ε → σ → Prop where
  | refl (a : σ) : Run step a [] a
  | head {a b c : σ} {seen more : List ε} : step a seen b → Run step b more c →
      Run step a (seen ++ more) c

theorem Run.append {a b c : σ} {seen more : List ε} (h : Run step a seen b)
    (h' : Run step b more c) : Run step a (seen ++ more) c := by
  induction h with
  | refl a => exact h'
  | head hstep _ ih =>
    rw [List.append_assoc]
    exact .head hstep (ih h')

/-- The same steps, of which `view` shows a part. -/
def System.viewing {ε' : Type} (step : System σ ε) (view : ε → Option ε') : System σ ε' :=
  fun a seen b => ∃ seen', step a seen' b ∧ seen = seen'.filterMap view

def System.through {ε' : Type} (step : System σ ε) (f : ε → ε') : System σ ε' :=
  fun a seen b => ∃ seen', step a seen' b ∧ seen = seen'.map f

theorem System.viewing_some (step : System σ ε) : step.viewing some = step := by
  funext a seen b
  simp [viewing]

def Idles (step : System σ ε) (a : σ) : Prop :=
  ∃ states : Nat → σ, states 0 = a ∧ ∀ n, step (states n) [] (states (n + 1))

theorem Idles.next (h : Idles step a) : ∃ b, step a [] b ∧ Idles step b := by
  obtain ⟨states, rfl, hsteps⟩ := h
  exact ⟨states 1, hsteps 0, fun n => states (n + 1), rfl, fun n => hsteps (n + 1)⟩

/-- A property that always allows a silent step that keeps it allows silent steps without end. -/
theorem idles_of_invariant (keeps : σ → Prop)
    (hnext : ∀ a, keeps a → ∃ b, step a [] b ∧ keeps b) (ha : keeps a) : Idles step a := by
  choose next hstep hkeeps using fun x : { a // keeps a } => hnext x.1 x.2
  let advance : { a // keeps a } → { a // keeps a } := fun x => ⟨next x, hkeeps x⟩
  refine ⟨fun n => (advance^[n] ⟨a, ha⟩).1, rfl, fun n => ?_⟩
  simp only [Function.iterate_succ_apply']
  exact hstep _

/-- The same is seen of both, and both can stop being seen after the same. -/
structure SameBehaviour (step : System σ ε) (step' : System τ ε) (a : σ) (b : τ) : Prop where
  seen : ∀ trace, (∃ a', Run step a trace a') ↔ ∃ b', Run step' b trace b'
  idles : ∀ trace, (∃ a', Run step a trace a' ∧ Idles step a') ↔ ∃ b', Run step' b trace b' ∧
    Idles step' b'

theorem SameBehaviour.trans (h : SameBehaviour step step' a b)
    (h' : SameBehaviour step' step'' b c) :
    SameBehaviour step step'' a c where
  seen := fun trace => (h.seen trace).trans (h'.seen trace)
  idles := fun trace => (h.idles trace).trans (h'.idles trace)

theorem SameBehaviour.symm (h : SameBehaviour step step' a b) : SameBehaviour step' step b a where
  seen := fun trace => (h.seen trace).symm
  idles := fun trace => (h.idles trace).symm

theorem SameBehaviour.refl (step : System σ ε) (a : σ) : SameBehaviour step step a a where
  seen := fun _ => Iff.rfl
  idles := fun _ => Iff.rfl

/-- What can be seen of the first can be seen of the second, which stops being seen where the first
does. -/
structure Follows (step : System σ ε) (step' : System τ ε) (a : σ) (b : τ) : Prop where
  seen : ∀ trace, (∃ a', Run step a trace a') → ∃ b', Run step' b trace b'
  idles : ∀ trace, (∃ a', Run step a trace a' ∧ Idles step a') → ∃ b', Run step' b trace b' ∧
    Idles step' b'

theorem SameBehaviour.follows (h : SameBehaviour step step' a b) : Follows step step' a b where
  seen := fun trace => (h.seen trace).1
  idles := fun trace => (h.idles trace).1

theorem Follows.refl (step : System σ ε) (a : σ) : Follows step step a a where
  seen := fun _ hrun => hrun
  idles := fun _ hrun => hrun

theorem Follows.trans (h : Follows step step' a b) (h' : Follows step' step'' b c) :
    Follows step step'' a c where
  seen := fun trace hrun => h'.seen trace (h.seen trace hrun)
  idles := fun trace hrun => h'.idles trace (h.idles trace hrun)

/-- From related states every step of the first system is a step of the second, or one of the two
goes on alone and nothing is seen of it; the number bounds how often that happens in a row. -/
def Simulates (step : System σ ε) (step' : System τ ε) (related : Nat → σ → τ → Prop) : Prop :=
  ∀ n a b, related n a b → ∀ seen a', step a seen a' →
    (seen = [] ∧ ∃ m < n, related m a' b) ∨ (∃ m < n, ∃ b', step' b [] b' ∧ related m a b') ∨
      ∃ b' m, step' b seen b' ∧ related m a' b'

namespace Simulates

variable (h : Simulates step step' related)
include h

theorem run_of_step {seen : List ε} (hrelated : related n a b) (hstep : step a seen a') :
    ∃ b' m, Run step' b seen b' ∧ related m a' b' := by
  induction n using Nat.strongRecOn generalizing b with
  | _ n ih =>
    rcases h n a b hrelated seen a' hstep with ⟨rfl, m, -, hnext⟩ | ⟨m, hlt, b₁, hstep', hnext⟩ |
      ⟨b', m, hstep', hend⟩
    · exact ⟨b, m, .refl b, hnext⟩
    · obtain ⟨b', m', hrun, hend⟩ := ih m hlt hnext
      exact ⟨b', m', .head hstep' hrun, hend⟩
    · refine ⟨b', m, ?_, hend⟩
      simpa using Run.head hstep' (.refl b')

theorem run {trace : List ε} (hrelated : related n a b) (hrun : Run step a trace a') :
    ∃ b' m, Run step' b trace b' ∧ related m a' b' := by
  induction hrun generalizing n b with
  | refl a => exact ⟨b, n, .refl b, hrelated⟩
  | head hstep _ ih =>
    obtain ⟨b₁, m, hfirst, hnext⟩ := h.run_of_step hrelated hstep
    obtain ⟨b', m', hrest, hend⟩ := ih hnext
    exact ⟨b', m', hfirst.append hrest, hend⟩

/-- A system that goes on silently forever does not leave the other behind: it can do so only so
often without it. -/
theorem idles (hrelated : related n a b) (hidles : Idles step a) : Idles step' b := by
  refine idles_of_invariant (fun b => ∃ n a, related n a b ∧ Idles step a) ?_
    ⟨n, a, hrelated, hidles⟩
  rintro b ⟨n, a, hrelated, hidles⟩
  induction n using Nat.strongRecOn generalizing a with
  | _ n ih =>
    obtain ⟨a', hstep, hnext⟩ := hidles.next
    rcases h n a b hrelated [] a' hstep with ⟨-, m, hlt, hon⟩ | ⟨m, -, b', hstep', hon⟩ |
      ⟨b', m, hstep', hon⟩
    · exact ih m hlt a' hon hnext
    · exact ⟨b', hstep', m, a, hon, hidles⟩
    · exact ⟨b', hstep', m, a', hon, hnext⟩

theorem follows (hrelated : related n a b) : Follows step step' a b where
  seen := by
    rintro trace ⟨a', hrun⟩
    obtain ⟨b', -, hrun', -⟩ := h.run hrelated hrun
    exact ⟨b', hrun'⟩
  idles := by
    rintro trace ⟨a', hrun, hidles⟩
    obtain ⟨b', m, hrun', hend⟩ := h.run hrelated hrun
    exact ⟨b', hrun', h.idles hend hidles⟩

end Simulates

/-! ## Lockstep -/

/-- The only step from one state leads to the other, and nothing is seen of it. -/
def Slips (step : System σ ε) (a a' : σ) : Prop :=
  step a [] a' ∧ ∀ seen b, step a seen b → seen = [] ∧ b = a'

def Matched (step : System σ ε) (step' : System τ ε) (related : Nat → σ → τ → Prop)
    (a : σ) (b : τ) :
    Prop :=
  ∀ seen a', step a seen a' → ∃ b' n, step' b seen b' ∧ related n a' b'

/-- Each system can do what the other does. -/
def MatchedBoth (step : System σ ε) (step' : System τ ε) (related : Nat → σ → τ → Prop) (a : σ)
    (b : τ) : Prop :=
  Matched step step' related a b ∧ Matched step' step (fun n b a => related n a b) b a

/-- From related states one system slips on, or the other does, or they go together.  The number
bounds how often a system can slip before they go together. -/
def Lockstep (step : System σ ε) (step' : System τ ε) (related : Nat → σ → τ → Prop) : Prop :=
  ∀ n a b, related n a b →
    (∃ m < n, ∃ a', Slips step a a' ∧ related m a' b) ∨
    (∃ m < n, ∃ b', Slips step' b b' ∧ related m a b') ∨
    (Matched step step' related a b ∧ Matched step' step (fun n b a => related n a b) b a)

namespace Lockstep

variable (h : Lockstep step step' related)
include h

theorem symm : Lockstep step' step fun n b a => related n a b := by
  intro n b a hrelated
  rcases h n a b hrelated with hleft | hright | ⟨hforth, hback⟩
  · exact .inr (.inl hleft)
  · exact .inl hright
  · exact .inr (.inr ⟨hback, hforth⟩)

theorem simulates : Simulates step step' related := by
  intro n a b hrelated seen a' hstep
  rcases h n a b hrelated with ⟨m, hlt, a₁, hslips, hnext⟩ |
    ⟨m, hlt, b₁, hslips, hnext⟩ | ⟨hforth, -⟩
  · obtain ⟨rfl, rfl⟩ := hslips.2 seen a' hstep
    exact .inl ⟨rfl, m, hlt, hnext⟩
  · exact .inr (.inl ⟨m, hlt, b₁, hslips.1, hnext⟩)
  · exact .inr (.inr (hforth seen a' hstep))

theorem sameBehaviour (hrelated : related n a b) : SameBehaviour step step' a b := by
  have hforth := h.simulates.follows hrelated
  have hback := h.symm.simulates.follows hrelated
  exact ⟨fun trace => ⟨hforth.seen trace, hback.seen trace⟩,
    fun trace => ⟨hforth.idles trace, hback.idles trace⟩⟩

end Lockstep

/-! ## Slipping until they meet -/

inductive SlipsTo (step : System σ ε) : Nat → σ → σ → Prop where
  | refl (a : σ) : SlipsTo step 0 a a
  | head {n : Nat} {a b c : σ} : Slips step a b → SlipsTo step n b c → SlipsTo step (n + 1) a c

/-- Both systems slip on into states that are related. -/
def Meets (step : System σ ε) (step' : System τ ε) (related : σ → τ → Prop) (n : Nat) (a : σ)
    (b : τ) : Prop :=
  ∃ i j a' b', n = i + j ∧ SlipsTo step i a a' ∧ SlipsTo step' j b b' ∧ related a' b'

theorem Meets.of_related {related : σ → τ → Prop} (h : related a b) :
    Meets step step' related 0 a b :=
  ⟨0, 0, a, b, rfl, .refl a, .refl b, h⟩

/-- Systems that meet again after each step taken together go in lockstep. -/
theorem lockstep_meets {related : σ → τ → Prop}
    (h : ∀ a b, related a b → MatchedBoth step step' (Meets step step' related) a b) :
    Lockstep step step' (Meets step step' related) := by
  rintro n a b ⟨i, j, a', b', rfl, ha, hb, hrelated⟩
  cases ha with
  | head hslips hrest => exact .inl ⟨_, by omega, _, hslips, _, j, a', b', rfl, hrest, hb, hrelated⟩
  | refl =>
    cases hb with
    | head hslips hrest =>
      exact .inr (.inl ⟨_, by omega, _, hslips, 0, _, a, b', rfl, .refl a, hrest, hrelated⟩)
    | refl => exact .inr (.inr (h a b hrelated))

def InStep (step : System σ ε) (step' : System τ ε) (a : σ) (b : τ) : Prop :=
  ∃ related n, Lockstep step step' related ∧ related n a b

theorem InStep.sameBehaviour (h : InStep step step' a b) : SameBehaviour step step' a b := by
  obtain ⟨related, n, hlockstep, hrelated⟩ := h
  exact hlockstep.sameBehaviour hrelated

theorem InStep.refl (step : System σ ε) (a : σ) : InStep step step a a :=
  ⟨fun _ x y => x = y, 0, fun _ _ _ hxy => .inr (.inr ⟨fun _ x' hstep => ⟨x', 0, hxy ▸ hstep, rfl⟩,
    fun _ y' hstep => ⟨y', 0, hxy ▸ hstep, rfl⟩⟩), rfl⟩

theorem inStep_of_stuck (ha : ∀ seen a', ¬ step a seen a') (hb : ∀ seen b', ¬ step' b seen b') :
    InStep step step' a b := by
  refine ⟨fun _ x y => x = a ∧ y = b, 0, ?_, rfl, rfl⟩
  rintro n x y ⟨rfl, rfl⟩
  exact .inr (.inr ⟨fun seen a' hstep => absurd hstep (ha seen a'),
    fun seen b' hstep => absurd hstep (hb seen b')⟩)

/-! ## Seeing less -/

section

variable {ε' : Type} {view : ε → Option ε'}

theorem Slips.viewing (h : Slips step a a') : Slips (step.viewing view) a a' := by
  refine ⟨⟨[], h.1, rfl⟩, ?_⟩
  rintro _ b ⟨seen, hstep, rfl⟩
  obtain ⟨rfl, rfl⟩ := h.2 seen b hstep
  exact ⟨rfl, rfl⟩

theorem Matched.viewing (h : Matched step step' related a b) :
    Matched (step.viewing view) (step'.viewing view) related a b := by
  rintro _ a' ⟨seen, hstep, rfl⟩
  obtain ⟨b', n, hstep', hrelated⟩ := h seen a' hstep
  exact ⟨b', n, ⟨seen, hstep', rfl⟩, hrelated⟩

theorem Lockstep.viewing (h : Lockstep step step' related) :
    Lockstep (step.viewing view) (step'.viewing view) related := by
  intro n a b hrelated
  rcases h n a b hrelated with ⟨m, hlt, a', hs, hnext⟩ | ⟨m, hlt, b', hs, hnext⟩ | ⟨hforth, hback⟩
  · exact .inl ⟨m, hlt, a', hs.viewing, hnext⟩
  · exact .inr (.inl ⟨m, hlt, b', hs.viewing, hnext⟩)
  · exact .inr (.inr ⟨hforth.viewing, hback.viewing⟩)

end

/-! ## Seeing the way -/

/-- Of each step the state is seen that it is taken in. -/
def System.passing {ε' : Type} (step : System σ ε) (place : σ → ε') : System σ ε' :=
  fun a seen b => seen = [place a] ∧ ∃ all, step a all b

theorem Run.passing_head {ε' : Type} {place : σ → ε'} {trace : List ε'} {all : List ε} {c : σ}
    (h : step a all a') (hrun : Run (step.passing place) a' trace c) :
    Run (step.passing place) a (place a :: trace) c :=
  .head ⟨rfl, all, h⟩ hrun

theorem Run.of_passing {ε' : Type} {place : σ → ε'} {p : ε'} {trace : List ε'} {c : σ}
    (h : Run (step.passing place) a (p :: trace) c) :
    ∃ all b, step a all b ∧ Run (step.passing place) b trace c := by
  generalize hwhole : p :: trace = whole at h
  cases h with
  | refl => cases hwhole
  | @head _ b _ seen more hstep hrest =>
    obtain ⟨rfl, all, hstep⟩ := hstep
    obtain rfl := (List.cons.inj hwhole).2
    exact ⟨all, b, hstep, hrest⟩

/-- Systems that go step by step in related states pass the same places. -/
theorem Lockstep.passing {ε' ε'' : Type} {view : ε → Option ε'} (place : σ → ε'') (place' : τ → ε'')
    {R : σ → τ → Prop} (h : Lockstep (step.viewing view) (step'.viewing view) fun _ => R)
    (hplace : ∀ a b, R a b → place a = place' b) :
    Lockstep (step.passing place) (step'.passing place') fun _ => R := by
  intro n a b hrelated
  rcases h 0 a b hrelated with ⟨m, hlt, -⟩ | ⟨m, hlt, -⟩ | ⟨hforth, hback⟩
  · omega
  · omega
  refine .inr (.inr ⟨?_, ?_⟩)
  · rintro _ a' ⟨rfl, all, hstep⟩
    obtain ⟨b', n, ⟨all', hstep', -⟩, hnext⟩ := hforth _ a' ⟨all, hstep, rfl⟩
    exact ⟨b', n, ⟨by rw [hplace a b hrelated], all', hstep'⟩, hnext⟩
  · rintro _ b' ⟨rfl, all, hstep⟩
    obtain ⟨a', n, ⟨all', hstep', -⟩, hnext⟩ := hback _ b' ⟨all, hstep, rfl⟩
    exact ⟨a', n, ⟨by rw [hplace a b hrelated], all', hstep'⟩, hnext⟩

def System.showing (step : System σ ε) (shows : ε → Bool) : System σ ε :=
  fun a seen b => ∃ all, step a all b ∧ seen = all.filter shows

theorem System.showing_eq_viewing (step : System σ ε) (shows : ε → Bool) :
    step.showing shows = step.viewing (Option.guard (shows ·)) := by
  funext a seen b
  simp only [System.showing, System.viewing, List.filterMap_eq_filter]

theorem MatchedBoth.showing (h : MatchedBoth step step' related a b) (shows : ε → Bool) :
    MatchedBoth (step.showing shows) (step'.showing shows) related a b := by
  rw [step.showing_eq_viewing, step'.showing_eq_viewing]
  exact ⟨h.1.viewing, h.2.viewing⟩

theorem slips_showing {shows : ε → Bool} {all : List ε} (hstep : step a all a')
    (honly : ∀ other b, step a other b → other.filter shows = [] ∧ b = a') :
    Slips (step.showing shows) a a' := by
  refine ⟨⟨all, hstep, (honly all a' hstep).1.symm⟩, ?_⟩
  rintro seen b ⟨other, hother, rfl⟩
  exact honly other b hother

theorem Slips.showing (h : Slips step a a') (shows : ε → Bool) :
    Slips (step.showing shows) a a' := by
  rw [step.showing_eq_viewing]
  exact h.viewing

end BytecodeOpt.Execution
