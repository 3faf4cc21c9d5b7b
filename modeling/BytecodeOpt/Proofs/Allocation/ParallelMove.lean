import BytecodeOpt.Allocation.ParallelMove
import Mathlib.Data.Fintype.EquivFin

/-!
# Moves in order and moves at once

Moves with distinct destinations can be put into an order that has the effect of carrying them out
at once.  While every destination is still to be read, the sources are the destinations in another
order.  So nothing waits in the scratch register then, and a detour through it makes a move ready.
There is a detour exactly if the moves form a cycle.
-/

namespace BytecodeOpt.Allocation.Move

/-! ## What moves do -/

section

variable {α : Type} {moves : List Move} {regs : Reg → α} {r : Reg} {m : Move}

def exec (regs : Reg → α) (m : Move) : Reg → α := Function.update regs m.dest (regs m.source)

def execAll (moves : List Move) (regs : Reg → α) : Reg → α := moves.foldl exec regs

def simultaneous (moves : List Move) (regs : Reg → α) (r : Reg) : α :=
  ((moves.find? (·.dest = r)).map fun m => regs m.source).getD (regs r)

theorem exec_of_ne (h : r ≠ m.dest) : exec regs m r = regs r := Function.update_of_ne h _ _

theorem exec_dest : exec regs m m.dest = regs m.source := Function.update_self ..

theorem eq_of_dest_eq {m' : Move} (hnodup : (moves.map dest).Nodup) (hm : m ∈ moves)
    (hm' : m' ∈ moves) (h : m.dest = m'.dest) : m = m' := List.inj_on_of_nodup_map hnodup hm hm' h

theorem simultaneous_of_mem (hnodup : (moves.map dest).Nodup) (hm : m ∈ moves) :
    simultaneous moves regs m.dest = regs m.source := by
  have hfound : moves.find? (·.dest = m.dest) = some m := by
    cases hfind : moves.find? (·.dest = m.dest) with
    | none => exact absurd (decide_eq_true rfl) (List.find?_eq_none.1 hfind m hm)
    | some m' =>
      have hdest : m'.dest = m.dest := by simpa using List.find?_some hfind
      rw [eq_of_dest_eq hnodup (List.mem_of_find?_eq_some hfind) hm hdest]
  rw [simultaneous, hfound, Option.map_some, Option.getD_some]

theorem simultaneous_of_not_mem (h : ∀ m ∈ moves, m.dest ≠ r) :
    simultaneous moves regs r = regs r := by
  have hnone : moves.find? (·.dest = r) = none := List.find?_eq_none.2 fun m hm => by
    simpa using h m hm
  rw [simultaneous, hnone, Option.map_none, Option.getD_none]

/-- What moves at once leave in a register is told by the move that writes it, if there is one. -/
theorem eq_simultaneous (hnodup : (moves.map dest).Nodup) {x : α}
    (hwritten : ∀ m ∈ moves, m.dest = r → x = regs m.source)
    (hkept : (∀ m ∈ moves, m.dest ≠ r) → x = regs r) : x = simultaneous moves regs r := by
  by_cases h : ∃ m ∈ moves, m.dest = r
  · obtain ⟨m, hm, rfl⟩ := h
    rw [simultaneous_of_mem hnodup hm]
    exact hwritten m hm rfl
  · push Not at h
    rw [simultaneous_of_not_mem h]
    exact hkept h

end

/-! ## The loop -/

variable {scratch : Reg} {pending out : List Move} {m : Move}

/-- The loop that takes ready moves and makes detours ends without a move left, and has put these
moves in order. -/
inductive Drains (scratch : Reg) : List Move → List Move → Prop where
  | done : Drains scratch [] []
  | take {pending out : List Move} {m : Move} (ready : pending.find? (isReady pending) = some m)
      (rest : Drains scratch (pending.erase m) out) : Drains scratch pending (m :: out)
  | detour {first : Move} {later out : List Move}
      (blocked : (first :: later).find? (isReady (first :: later)) = none)
      (rest : Drains scratch ((first :: later).map (redirect first.source scratch)) out) :
      Drains scratch (first :: later) (⟨scratch, first.source⟩ :: out)

structure Apart (scratch : Reg) (pending : List Move) : Prop where
  nodup : (pending.map dest).Nodup
  scratch : ∀ m ∈ pending, m.dest ≠ scratch

theorem isReady_iff : isReady pending m = true ↔ ∀ m' ∈ pending, m'.source ≠ m.dest := by
  simp [isReady]

@[simp] theorem dest_redirect (old new : Reg) (m : Move) : (redirect old new m).dest = m.dest := by
  unfold redirect
  split <;> rfl

theorem source_redirect (old new : Reg) (m : Move) :
    (redirect old new m).source = if m.source = old then new else m.source := by
  unfold redirect
  split <;> rfl

section

variable (h : Apart scratch pending)
include h

theorem Apart.erase (m : Move) : Apart scratch (pending.erase m) where
  nodup := h.nodup.sublist (List.erase_sublist.map dest)
  scratch m' hm' := h.scratch m' (List.mem_of_mem_erase hm')

theorem Apart.redirect (old new : Reg) : Apart scratch (pending.map (redirect old new)) where
  nodup := by simpa [List.map_map, Function.comp_def] using h.nodup
  scratch := List.forall_mem_map.2 fun m hm => by simpa using h.scratch m hm

theorem Apart.sources_perm (hblocked : pending.find? (isReady pending) = none) :
    (pending.map dest).Perm (pending.map source) := by
  have hread : pending.map dest ⊆ pending.map source := by
    intro r hr
    obtain ⟨m, hm, rfl⟩ := List.mem_map.1 hr
    have hnot := List.find?_eq_none.1 hblocked m hm
    rw [isReady_iff] at hnot
    push Not at hnot
    obtain ⟨m', hm', hsource⟩ := hnot
    exact hsource ▸ List.mem_map_of_mem hm'
  exact (h.nodup.subperm hread).perm_of_length_le (by simp)

theorem Apart.source_ne (hblocked : pending.find? (isReady pending) = none)
    (hm : m ∈ pending) : m.source ≠ scratch := by
  obtain ⟨m', hm', hdest⟩ :=
    List.mem_map.1 ((h.sources_perm hblocked).mem_iff.2 (List.mem_map_of_mem hm))
  exact hdest ▸ h.scratch m' hm'

end

/-- Behind a detour the move is ready that writes what was saved. -/
theorem Apart.exists_ready {first : Move} {later : List Move} (h : Apart scratch (first :: later))
    (hblocked : (first :: later).find? (isReady (first :: later)) = none) :
    ∃ m, ((first :: later).map (Move.redirect first.source scratch)).find?
      (isReady ((first :: later).map (Move.redirect first.source scratch))) = some m := by
  have hfirst : first.source ∈ (first :: later).map source := List.mem_map_of_mem List.mem_cons_self
  obtain ⟨m, hm, hdest⟩ := List.mem_map.1 ((h.sources_perm hblocked).mem_iff.2 hfirst)
  refine Option.isSome_iff_exists.1 (List.find?_isSome.2 ⟨_, List.mem_map_of_mem hm, ?_⟩)
  rw [isReady_iff, List.forall_mem_map, dest_redirect]
  intro m' hm'
  rw [source_redirect]
  split
  · exact (h.scratch m hm).symm
  · grind

/-- Two rounds for each move are enough: the induction is on the moves, and takes a detour together
with the move that it makes ready. -/
theorem Apart.drains (h : Apart scratch pending) {fuel : Nat} (hfuel : 2 * pending.length ≤ fuel) :
    Drains scratch pending (orderFrom scratch fuel pending) := by
  induction hlength : pending.length generalizing pending fuel with
  | zero =>
    obtain rfl := List.length_eq_zero_iff.1 hlength
    have hnil : orderFrom scratch fuel [] = [] := by cases fuel <;> rfl
    rw [hnil]
    exact .done
  | succ n ih =>
    obtain ⟨first, later, rfl⟩ := List.exists_cons_of_length_eq_add_one hlength
    obtain ⟨fuel, rfl⟩ : ∃ k, fuel = k + 2 := ⟨fuel - 2, by omega⟩
    -- A ready move is taken with whatever fuel is left for the others.
    have htake {pending : List Move} {m : Move} {fuel : Nat} (h : Apart scratch pending)
        (hready : pending.find? (isReady pending) = some m) (hlength : pending.length = n + 1)
        (hfuel : 2 * n ≤ fuel) : Drains scratch pending (orderFrom scratch (fuel + 1) pending) := by
      have hmem := List.mem_of_find?_eq_some hready
      obtain ⟨first, later, rfl⟩ := List.exists_cons_of_length_eq_add_one hlength
      have herase : ((first :: later).erase m).length = n := by
        rw [List.length_erase_of_mem hmem, hlength, Nat.add_sub_cancel]
      simp only [orderFrom, hready]
      exact .take hready (ih (h.erase m) (herase ▸ hfuel) herase)
    cases hready : (first :: later).find? (isReady (first :: later)) with
    | some m => exact htake h hready hlength (by omega)
    | none =>
      obtain ⟨m, hm⟩ := h.exists_ready hready
      have hrest := htake (h.redirect first.source scratch) hm (by simpa using hlength)
        (show 2 * n ≤ fuel by omega)
      rw [orderFrom]
      simp only [hready]
      exact .detour hready hrest

/-! ## The effect -/

section

variable {α : Type} {regs : Reg → α} {r : Reg}

theorem Apart.simultaneous_erase (h : Apart scratch pending)
    (hready : pending.find? (isReady pending) = some m) :
    simultaneous (pending.erase m) (exec regs m) r = simultaneous pending regs r := by
  have hmem := List.mem_of_find?_eq_some hready
  have hunread := isReady_iff.1 (List.find?_some hready)
  have hpending := (List.nodup_map_iff_inj_on h.nodup.of_map).1 h.nodup
  by_cases hr : r = m.dest
  · subst hr
    rw [simultaneous_of_mem h.nodup hmem, simultaneous_of_not_mem, exec_dest]
    intro m' hm' hdest
    obtain rfl := hpending m' (List.mem_of_mem_erase hm') m hmem hdest
    exact (List.Nodup.mem_erase_iff h.nodup.of_map).1 hm' |>.1 rfl
  · refine eq_simultaneous h.nodup (fun m' hm' hdest => ?_) fun hkept => ?_
    · subst hdest
      have hne : m' ≠ m := fun heq => hr (heq ▸ rfl)
      rw [simultaneous_of_mem (h.erase m).nodup ((List.mem_erase_of_ne hne).2 hm'),
        exec_of_ne (hunread m' hm')]
    · rw [simultaneous_of_not_mem fun m' hm' => hkept m' (List.mem_of_mem_erase hm'), exec_of_ne hr]

theorem Apart.simultaneous_redirect (h : Apart scratch pending)
    (hunread : ∀ m ∈ pending, m.source ≠ scratch) (old : Reg) (hr : r ≠ scratch) :
    simultaneous (pending.map (Move.redirect old scratch)) (exec regs ⟨scratch, old⟩) r =
      simultaneous pending regs r := by
  have hkeeps (m : Move) (hm : m ∈ pending) :
      exec regs ⟨scratch, old⟩ (Move.redirect old scratch m).source = regs m.source := by
    rw [source_redirect]
    split
    · rename_i hsource
      rw [hsource]
      exact exec_dest
    · exact exec_of_ne (hunread m hm)
  refine eq_simultaneous h.nodup (fun m hm hdest => ?_) fun hkept => ?_
  · rw [← hdest, ← dest_redirect old scratch m,
      simultaneous_of_mem (h.redirect old scratch).nodup (List.mem_map_of_mem hm), hkeeps m hm]
  · rw [simultaneous_of_not_mem (List.forall_mem_map.2 fun m hm => by simpa using hkept m hm)]
    exact exec_of_ne hr

theorem Drains.execAll (hdrains : Drains scratch pending out) (h : Apart scratch pending)
    (hr : r ≠ scratch) :
    execAll out regs r = simultaneous pending regs r := by
  induction hdrains generalizing regs with
  | done => rfl
  | @take pending out m ready _ ih =>
    calc Move.execAll (m :: out) regs r = Move.execAll out (exec regs m) r := rfl
      _ = simultaneous (pending.erase m) (exec regs m) r := ih (h.erase m)
      _ = simultaneous pending regs r := h.simultaneous_erase ready
  | @detour first later out blocked _ ih =>
    calc Move.execAll (⟨scratch, first.source⟩ :: out) regs r
        = Move.execAll out (exec regs ⟨scratch, first.source⟩) r := rfl
      _ = simultaneous ((first :: later).map (Move.redirect first.source scratch))
            (exec regs ⟨scratch, first.source⟩) r := ih (h.redirect _ _)
      _ = simultaneous (first :: later) regs r :=
        h.simultaneous_redirect (fun _ => h.source_ne blocked) first.source hr

theorem simultaneous_filter {moves : List Move} (hnodup : (moves.map dest).Nodup) :
    simultaneous (moves.filter fun m => m.dest ≠ m.source) regs r = simultaneous moves regs r := by
  have hfiltered : ((moves.filter fun m => m.dest ≠ m.source).map dest).Nodup :=
    hnodup.sublist (List.filter_sublist.map dest)
  refine eq_simultaneous hnodup (fun m hm hdest => ?_) fun hkept => ?_
  · subst hdest
    by_cases hself : m.dest = m.source
    · rw [← hself]
      refine simultaneous_of_not_mem fun m' hm' hdest => ?_
      obtain ⟨hmem, hne⟩ := List.mem_filter.1 hm'
      obtain rfl := eq_of_dest_eq hnodup hmem hm hdest
      simp [hself] at hne
    · exact simultaneous_of_mem hfiltered (List.mem_filter.2 ⟨hm, by simpa using hself⟩)
  · exact simultaneous_of_not_mem fun m hm => hkept m (List.mem_of_mem_filter hm)

end

/-! ## Cycles -/

def Feeds (moves : List Move) (a b : Reg) : Prop := (⟨b, a⟩ : Move) ∈ moves

def Cyclic (moves : List Move) : Prop := ∃ r, Relation.TransGen (Feeds moves) r r

theorem feeds_of_mem (hm : m ∈ pending) : Feeds pending m.source m.dest := hm

theorem cyclic_erase_iff (hready : isReady pending m = true) :
    Cyclic (pending.erase m) ↔ Cyclic pending := by
  have hunread := isReady_iff.1 hready
  -- Whatever is copied on is not the destination of the move.
  have hstep {a b c : Reg} (hab : Feeds pending a b) (hbc : Feeds pending b c) :
      Feeds (pending.erase m) a b := by
    refine (List.mem_erase_of_ne fun heq => ?_).2 hab
    exact hunread ⟨c, b⟩ hbc (congrArg dest heq)
  have hpath {a b c : Reg} (hab : Relation.TransGen (Feeds pending) a b) (hbc : Feeds pending b c) :
      Relation.TransGen (Feeds (pending.erase m)) a b := by
    induction hab generalizing c with
    | single hab => exact .single (hstep hab hbc)
    | tail _ hlast ih => exact (ih hlast).tail (hstep hlast hbc)
  constructor
  · rintro ⟨r, hr⟩
    exact ⟨r, Relation.TransGen.mono (fun _ _ => List.mem_of_mem_erase) r r hr⟩
  · rintro ⟨r, hr⟩
    obtain ⟨next, hnext, -⟩ := Relation.TransGen.head'_iff.1 hr
    exact ⟨r, hpath hr hnext⟩

/-- Among moves of which none is ready there is a cycle: without one, the induction along the copies
would find a destination that is not copied on. -/
theorem cyclic_of_blocked (hm : m ∈ pending) (hblocked : pending.find? (isReady pending) = none) :
    Cyclic pending := by
  by_contra hacyclic
  let later (a b : { r // r ∈ pending.map dest }) : Prop :=
    Relation.TransGen (Feeds pending) b.1 a.1
  have : IsTrans _ later := ⟨fun _ _ _ hab hbc => hbc.trans hab⟩
  have : Std.Irrefl later := ⟨fun a ha => hacyclic ⟨a.1, ha⟩⟩
  refine (Finite.wellFounded_of_trans_of_irrefl later).induction (C := fun _ => False)
    ⟨m.dest, List.mem_map_of_mem hm⟩ fun ⟨r, hr⟩ hlater => ?_
  obtain ⟨m', hm', rfl⟩ := List.mem_map.1 hr
  have hread := List.find?_eq_none.1 hblocked m' hm'
  rw [isReady_iff] at hread
  push Not at hread
  obtain ⟨next, hnext, hsource⟩ := hread
  have hfeeds : Feeds pending m'.dest next.dest := hsource ▸ feeds_of_mem hnext
  exact hlater ⟨next.dest, List.mem_map_of_mem hnext⟩ (.single hfeeds)

theorem Drains.writes_scratch_iff (hdrains : Drains scratch pending out)
    (h : Apart scratch pending) :
    (∃ m ∈ out, m.dest = scratch) ↔ Cyclic pending := by
  induction hdrains with
  | done =>
    have hacyclic : ¬ Cyclic [] := by
      rintro ⟨r, hr⟩
      obtain ⟨next, hnext, -⟩ := Relation.TransGen.head'_iff.1 hr
      exact List.not_mem_nil hnext
    simp [hacyclic]
  | @take pending out m ready _ ih =>
    rw [← cyclic_erase_iff (List.find?_some ready), ← ih (h.erase m), List.exists_mem_cons_iff]
    exact or_iff_right (h.scratch m (List.mem_of_find?_eq_some ready))
  | detour blocked _ _ =>
    exact iff_of_true ⟨_, List.mem_cons_self, rfl⟩ (cyclic_of_blocked List.mem_cons_self blocked)

/-! ## The order -/

theorem apart_filter {moves : List Move} (hnodup : (moves.map dest).Nodup)
    (hunused : ∀ m ∈ moves, m.dest ≠ scratch) :
    Apart scratch (moves.filter fun m => m.dest ≠ m.source) where
  nodup := hnodup.sublist (List.filter_sublist.map dest)
  scratch m hm := hunused m (List.mem_of_mem_filter hm)

theorem drains_order {moves : List Move} (hnodup : (moves.map dest).Nodup)
    (hunused : ∀ m ∈ moves, m.dest ≠ scratch) :
    Drains scratch (moves.filter fun m => m.dest ≠ m.source) (order moves scratch) :=
  (apart_filter hnodup hunused).drains (Nat.le_refl _)

/-- Putting moves in order comes to an end.  One after the other they then have the effect that they
have at once, and the scratch register is written exactly if they form a cycle.  It may be read by
the moves: they have all been carried out before a detour. -/
theorem ordered_moves_as_simultaneous (moves : List Move) (scratch : Reg)
    (hnodup : (moves.map dest).Nodup) (hunused : ∀ m ∈ moves, m.dest ≠ scratch) :
    Drains scratch (moves.filter fun m => m.dest ≠ m.source) (order moves scratch) ∧
      (∀ (α : Type) (regs : Reg → α) (r : Reg), r ≠ scratch →
        execAll (order moves scratch) regs r = simultaneous moves regs r) ∧
      ((∃ m ∈ order moves scratch, m.dest = scratch) ↔
        Cyclic (moves.filter fun m => m.dest ≠ m.source)) ∧
      ((∀ m ∈ moves, m.dest ≠ outside) →
        (needsScratch moves = true ↔ Cyclic (moves.filter fun m => m.dest ≠ m.source))) := by
  have hdrains := drains_order hnodup hunused
  have hapart := apart_filter hnodup hunused
  refine ⟨hdrains, fun α regs r hr => ?_, hdrains.writes_scratch_iff hapart, fun houtside => ?_⟩
  · rw [hdrains.execAll hapart hr, simultaneous_filter hnodup]
  · rw [← (drains_order hnodup houtside).writes_scratch_iff (apart_filter hnodup houtside)]
    simp [needsScratch]

/-- A cycle of three with a copy of one of its registers, a cycle of two, and a move that does
nothing. -/
def rotations : List Move := [⟨0, 2⟩, ⟨1, 0⟩, ⟨2, 1⟩, ⟨3, 0⟩, ⟨5, 6⟩, ⟨6, 5⟩, ⟨7, 7⟩]

theorem ordered_moves_as_simultaneous_rotations :
    (∀ r, r ≠ 9 → execAll (order rotations 9) id r = simultaneous rotations id r) ∧
      (order rotations 9).countP (·.dest = 9) = 2 ∧ needsScratch rotations = true := by
  obtain ⟨-, heffect, -, hneeds⟩ := ordered_moves_as_simultaneous rotations 9
    (by decide) (by decide)
  have hcycle : Relation.TransGen (Feeds (rotations.filter fun m => m.dest ≠ m.source)) 5 5 :=
    .tail (.single (show Feeds _ 5 6 by simp [Feeds, rotations])) (by simp [Feeds, rotations])
  exact ⟨fun r => heffect Nat id r, by decide, (hneeds (by decide)).2 ⟨5, hcycle⟩⟩

end BytecodeOpt.Allocation.Move
