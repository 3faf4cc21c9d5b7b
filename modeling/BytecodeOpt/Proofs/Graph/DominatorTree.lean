import BytecodeOpt.Graph.Dominators
import BytecodeOpt.Proofs.Graph.DepthFirst
import BytecodeOpt.Total
import Mathlib.Logic.Relation

/-!
# How the tree of dominators settles

While a sweep is under way the tree is wrong in places, but what dominates a node always lies above
it, and a node only moves to a parent further up.  What carries both is that a node in front of
which the sweep stands, if it lies above another node, also lies above the predecessors of the other
that come earlier.  Once a sweep changes nothing, what lies above a node dominates it.
-/

namespace BytecodeOpt.Dominators

open Digraph

variable {g : Digraph} {entry a b c p w x y z i : Nat} {parents : Array (Option Nat)}

/-! ## Places -/

def rank (g : Digraph) (entry x : Nat) : Nat := (g.reversePostorder entry).idxOf x

theorem getD_foldl_places {order : List Nat} (hnodup : order.Nodup) (k : Nat) (t : Array Nat)
    (hlt : ∀ x ∈ order, x < t.size) :
    ((order.zipIdx k).foldl (fun places e => places.setIfInBounds e.1 e.2) t).getD x 0 =
      if x ∈ order then k + order.idxOf x else t.getD x 0 := by
  induction order generalizing k t with
  | nil => simp
  | cons y rest ih =>
    obtain ⟨hy, hrest⟩ := List.nodup_cons.1 hnodup
    rw [List.zipIdx_cons, List.foldl_cons,
      ih hrest (k + 1) _ (by simpa using fun x hx => hlt x (by simp [hx])),
      Table.getD_setIfInBounds]
    have := hlt y List.mem_cons_self
    by_cases hx : x = y
    · subst hx
      simp [hy, this]
    · by_cases hmem : x ∈ rest
      · rw [if_pos hmem, if_pos (List.mem_cons_of_mem _ hmem), List.idxOf_cons_ne _ (Ne.symm hx)]
        omega
      · simp [hx, hmem, Ne.symm hx]

theorem getD_places (hx : g.Reaches entry x) :
    (places g.size (g.reversePostorder entry)).getD x 0 = rank g entry x := by
  have hlt : ∀ x ∈ g.reversePostorder entry,
      x < (Array.replicate g.size 18446744073709551615).size := fun x hx => by
    simpa using lt_size_of_mem_reversePostorder hx
  rw [places, getD_foldl_places (nodup_reversePostorder g entry) 0 _ hlt,
    if_pos (mem_reversePostorder.2 hx), Nat.zero_add, rank]

theorem rank_inj (hx : g.Reaches entry x) (h : rank g entry x = rank g entry y) : x = y :=
  (List.idxOf_inj (mem_reversePostorder.2 hx)).1 h

theorem rank_eq_of_split {before after : List Nat}
    (heq : g.reversePostorder entry = before ++ x :: after) : rank g entry x = before.length := by
  have hnodup := nodup_reversePostorder g entry
  rw [heq] at hnodup
  have hx : x ∉ before := fun hmem => (List.nodup_append.1 hnodup).2.2 x hmem x (by simp) rfl
  simp [rank, heq, List.idxOf_append_of_notMem hx]

theorem rank_lt (hx : g.Reaches entry x) : rank g entry x < (g.reversePostorder entry).length :=
  List.idxOf_lt_length_iff.2 (mem_reversePostorder.2 hx)

theorem length_reversePostorder_le (g : Digraph) (entry : Nat) :
    (g.reversePostorder entry).length ≤ g.size := by
  have hsub : g.reversePostorder entry ⊆ List.range g.size := fun x hx =>
    List.mem_range.2 (lt_size_of_mem_reversePostorder hx)
  simpa using ((nodup_reversePostorder g entry).subperm hsub).length_le

theorem rank_lt_size (hx : g.Reaches entry x) : rank g entry x < g.size :=
  Nat.lt_of_lt_of_le (rank_lt hx) (length_reversePostorder_le g entry)

/-- A node other than the entry has a predecessor that comes earlier. -/
theorem exists_earlier (hx : g.Reaches entry x) (hne : x ≠ entry) :
    ∃ p, g.Reaches entry p ∧ x ∈ g.successors p ∧ rank g entry p < rank g entry x := by
  obtain ⟨before, after, heq⟩ := List.append_of_mem (mem_reversePostorder.2 hx)
  obtain ⟨p, hp, hedge⟩ := (led_reversePostorder g entry before x after heq).resolve_left hne
  have hmem : p ∈ g.reversePostorder entry := by simp [heq, hp]
  refine ⟨p, mem_reversePostorder.1 hmem, hedge, ?_⟩
  rw [rank_eq_of_split heq, rank, heq, List.idxOf_append_of_mem hp]
  exact List.idxOf_lt_length_iff.2 hp

theorem exists_order (hentry : entry < g.size) :
    ∃ rest, g.reversePostorder entry = entry :: rest := by
  have hmem : entry ∈ g.reversePostorder entry := mem_reversePostorder.2 (.refl hentry trivial)
  cases heq : g.reversePostorder entry with
  | nil => simp [heq] at hmem
  | cons x rest =>
    obtain rfl : x = entry := by simpa using led_reversePostorder g entry [] x rest heq
    exact ⟨rest, rfl⟩

theorem rank_entry (hentry : entry < g.size) : rank g entry entry = 0 := by
  obtain ⟨rest, heq⟩ := exists_order hentry
  have hsplit : g.reversePostorder entry = [] ++ entry :: rest := heq
  exact rank_eq_of_split hsplit

theorem mem_predecessors (hx : x < g.size) :
    p ∈ (predecessors g (g.reversePostorder entry)).getD x [] ↔ g.Reaches entry p ∧
      x ∈ g.successors p := by
  simp only [predecessors, Table.getD_map, Array.size_range, hx, dite_true, Array.getElem_range,
    List.mem_flatMap, mem_reversePostorder, List.mem_map, List.mem_filter, decide_eq_true_eq]
  constructor
  · rintro ⟨q, hq, y, ⟨hy, rfl⟩, rfl⟩
    exact ⟨hq, hy⟩
  · rintro ⟨hp, hedge⟩
    exact ⟨p, hp, x, ⟨hedge, rfl⟩, rfl⟩

/-! ## Climbing -/

def Has (parents : Array (Option Nat)) (x : Nat) : Prop := ∃ p, parents.getD x none = some p

/-- Climbing from a node leads to another. -/
abbrev Up (parents : Array (Option Nat)) : Nat → Nat → Prop :=
  Relation.ReflTransGen fun x p => parents.getD x none = some p

/-- What lies above a node is what lies above all of the others. -/
def Nearest (parents : Array (Option Nat)) (others : Nat → Prop) (c : Nat) : Prop :=
  ∀ z, Up parents c z ↔ ∀ p, others p → Up parents p z

structure Rooted (g : Digraph) (entry : Nat) (parents : Array (Option Nat)) : Prop where
  inside : entry < g.size
  size : parents.size = g.size
  root : parents.getD entry none = some entry
  reached : ∀ {x}, Has parents x → g.Reaches entry x
  earlier : ∀ {x p}, parents.getD x none = some p → x ≠ entry →
    Has parents p ∧ rank g entry p < rank g entry x

theorem up_cases (h : Up parents x z) :
    z = x ∨ ∃ p, parents.getD x none = some p ∧ Up parents p z := by
  rcases Relation.ReflTransGen.cases_head h with rfl | hstep
  · exact .inl rfl
  · exact .inr hstep

namespace Rooted

variable (h : Rooted g entry parents)
include h

theorem eq_of_up_root (hz : Up parents entry z) : z = entry := by
  induction hz with
  | refl => rfl
  | tail _ hstep ih =>
    subst ih
    exact Option.some.inj (hstep.symm.trans h.root)

theorem has_of_up (hx : Has parents x) (hz : Up parents x z) :
    Has parents z ∧ rank g entry z ≤ rank g entry x := by
  induction hz with
  | refl => exact ⟨hx, Nat.le_refl _⟩
  | @tail b c _ hstep ih =>
    by_cases hb : b = entry
    · subst hb
      obtain rfl := Option.some.inj (h.root.symm.trans hstep)
      exact ih
    · obtain ⟨hc, hlt⟩ := h.earlier hstep hb
      exact ⟨hc, by omega⟩

theorem eq_of_up_of_rank (hx : Has parents x) (hz : Up parents x z)
    (hrank : rank g entry x ≤ rank g entry z) :
    z = x := by
  obtain ⟨hz', hle⟩ := h.has_of_up hx hz
  exact rank_inj (h.reached hz') (Nat.le_antisymm hle hrank)

theorem nearest_unique {others : Nat → Prop} (hb : Has parents b) (hc : Has parents c)
    (hnb : Nearest parents others b) (hnc : Nearest parents others c) : b = c := by
  have hbc : Up parents b c := (hnb c).2 ((hnc c).1 .refl)
  have hcb : Up parents c b := (hnc b).2 ((hnb b).1 .refl)
  exact h.eq_of_up_of_rank hc hcb (h.has_of_up hb hbc).2

/-- The later of two nodes does not lie above the earlier, so climbing from it loses nothing
common. -/
theorem up_iff_of_later (ha : Has parents a) (hb : Has parents b)
    (hlt : rank g entry b < rank g entry a) (hp : parents.getD a none = some p) :
    Up parents a z ∧ Up parents b z ↔ Up parents p z ∧ Up parents b z := by
  refine and_congr_left fun hbz => ⟨fun haz => ?_, fun hpz => .head hp hpz⟩
  rcases up_cases haz with rfl | ⟨q, hq, hqz⟩
  · have := (h.has_of_up hb hbz).2
    omega
  · exact Option.some.inj (hq.symm.trans hp) ▸ hqz

theorem nearest_intersect (n : Nat) (ha : Has parents a) (hb : Has parents b)
    (hn : rank g entry a + rank g entry b ≤ n) :
    let c := intersect parents (places g.size (g.reversePostorder entry)) n a b
    Has parents c ∧ ∀ z, Up parents c z ↔ Up parents a z ∧ Up parents b z := by
  have hsame {a b : Nat} (ha : Has parents a) (hb : Has parents b)
      (heq : rank g entry a = rank g entry b) :
      Has parents a ∧ ∀ z, Up parents a z ↔ Up parents a z ∧ Up parents b z := by
    obtain rfl := rank_inj (h.reached ha) heq
    exact ⟨ha, fun z => (and_self_iff).symm⟩
  induction n generalizing a b with
  | zero => exact hsame (a := a) (b := b) ha hb (by omega)
  | succ n ih =>
    have hne {x y : Nat} (hlt : rank g entry y < rank g entry x) : x ≠ entry := by
      rintro rfl
      rw [rank_entry h.inside] at hlt
      omega
    obtain ⟨p, hp⟩ := ha
    obtain ⟨q, hq⟩ := hb
    simp only [intersect, getD_places (h.reached ⟨p, hp⟩), getD_places (h.reached ⟨q, hq⟩), hp, hq]
    split
    next hlt =>
      obtain ⟨hhas, hrank⟩ := h.earlier hp (hne hlt)
      simp only [h.up_iff_of_later ⟨p, hp⟩ ⟨q, hq⟩ hlt hp]
      exact ih hhas ⟨q, hq⟩ (by omega)
    next hle =>
      split
      next hlt =>
        obtain ⟨hhas, hrank⟩ := h.earlier hq (hne hlt)
        simp only [and_comm (a := Up parents a _), h.up_iff_of_later ⟨q, hq⟩ ⟨p, hp⟩ hlt hq]
        simp only [and_comm (a := Up parents q _)]
        exact ih ⟨p, hp⟩ hhas (by omega)
      next hge => exact hsame ⟨p, hp⟩ ⟨q, hq⟩ (by omega)

end Rooted

/-- What has been found when some nodes have been joined. -/
def Joins (parents : Array (Option Nat)) (others : Nat → Prop) (found : Option Nat) : Prop :=
  (found = none → ∀ p, ¬ others p) ∧ ∀ c, found = some c → Has parents c ∧ Nearest parents others c

theorem joins_none : Joins parents (fun _ => False) none :=
  ⟨fun _ _ => id, fun _ hc => by cases hc⟩

theorem Rooted.joins_foldl (h : Rooted g entry parents) {steps : Nat} (hsteps : 2 * g.size ≤ steps)
    {others : Nat → Prop} {found : Option Nat} (hfound : Joins parents others found)
    (ps : List Nat) :
    Joins parents (fun p => others p ∨ (p ∈ ps ∧ Has parents p))
      (ps.foldl (join steps (places g.size (g.reversePostorder entry)) parents) found) := by
  induction ps generalizing others found with
  | nil => simpa using hfound
  | cons q ps ih =>
    have hstep : Joins parents (fun p => others p ∨ (p = q ∧ Has parents p))
        (join steps (places g.size (g.reversePostorder entry)) parents found q) := by
      unfold join
      cases hq : parents.getD q none with
      | none =>
        have hnot : ∀ p, ¬ (p = q ∧ Has parents p) := by
          rintro p ⟨rfl, r, hr⟩
          cases hq.symm.trans hr
        simpa [hnot] using hfound
      | some r =>
        have hhas : Has parents q := ⟨r, hq⟩
        have hiff : ∀ p, p = q ∧ Has parents p ↔ p = q :=
          fun p => and_iff_left_of_imp (by rintro rfl; exact hhas)
        simp only [Option.isNone_some, Bool.false_eq_true, if_false, hiff]
        cases found with
        | none =>
          have hnone := hfound.1 rfl
          refine ⟨fun hnone => (by cases hnone), fun c hc => ?_⟩
          obtain rfl := Option.some.inj hc
          exact ⟨hhas, fun z => by simp [hnone]⟩
        | some current =>
          obtain ⟨hcurrent, hnearest⟩ := hfound.2 current rfl
          refine ⟨fun hnone => (by cases hnone), fun c hc => ?_⟩
          obtain rfl := Option.some.inj hc
          have hsum : rank g entry q + rank g entry current ≤ steps := by
            have := rank_lt_size (h.reached hhas)
            have := rank_lt_size (h.reached hcurrent)
            omega
          obtain ⟨hmeet, hup⟩ := h.nearest_intersect steps hhas hcurrent hsum
          refine ⟨hmeet, fun z => ?_⟩
          rw [hup z, hnearest z]
          simp only [or_imp, forall_and, forall_eq]
          exact and_comm
    have hothers : (fun p => (others p ∨ (p = q ∧ Has parents p)) ∨ (p ∈ ps ∧ Has parents p)) =
        fun p => others p ∨ (p ∈ q :: ps ∧ Has parents p) := by
      funext p
      simp [or_assoc, or_and_right]
    exact hothers ▸ ih hstep

theorem Rooted.joins_unique (h : Rooted g entry parents) {others : Nat → Prop}
    {found found' : Option Nat}
    (hfound : Joins parents others found) (hfound' : Joins parents others found') :
    found = found' := by
  -- if nothing was joined, everything would lie above what is found, even what is no node
  have hsome {c : Nat} (hnone : ∀ p, ¬ others p) (hc : Joins parents others (some c)) : False := by
    obtain ⟨hhas, hnearest⟩ := hc.2 c rfl
    have hup : Up parents c g.size := (hnearest g.size).2 fun p hp => absurd hp (hnone p)
    exact Nat.lt_irrefl _ (h.reached (h.has_of_up hhas hup).1).lt_size
  cases found with
  | none =>
    cases found' with
    | none => rfl
    | some c => exact (hsome (hfound.1 rfl) hfound').elim
  | some b =>
    cases found' with
    | none => exact (hsome (hfound'.1 rfl) hfound).elim
    | some c =>
      obtain ⟨hb, hnb⟩ := hfound.2 b rfl
      obtain ⟨hc, hnc⟩ := hfound'.2 c rfl
      rw [h.nearest_unique hb hc hnb hnc]

/-! ## Moving a node -/

/-- A node gets a parent that comes earlier. -/
structure Moves (g : Digraph) (entry : Nat) (parents : Array (Option Nat)) (y c : Nat) : Prop
    extends Rooted g entry parents where
  node : g.Reaches entry y
  ne : y ≠ entry
  parent : Has parents c
  lt : rank g entry c < rank g entry y

namespace Moves

variable (h : Moves g entry parents y c)
include h

theorem getD_moved :
    (parents.setIfInBounds y (some c)).getD x none =
      if x = y then some c else parents.getD x none := by
  rw [Table.getD_setIfInBounds]
  have := h.size ▸ h.node.lt_size
  grind

theorem getD_moved_self : (parents.setIfInBounds y (some c)).getD y none = some c := by
  rw [h.getD_moved, if_pos rfl]

theorem has_moved :
    Has (parents.setIfInBounds y (some c)) x ↔ x = y ∨ Has parents x := by
  simp only [Has, h.getD_moved]
  by_cases hx : x = y
  · simp [hx]
  · simp [hx]

theorem rooted : Rooted g entry (parents.setIfInBounds y (some c)) where
  inside := h.inside
  size := by simpa using h.size
  root := by rw [h.getD_moved, if_neg h.ne.symm, h.root]
  reached := fun hx => by
    rcases h.has_moved.1 hx with rfl | hx
    · exact h.node
    · exact h.reached hx
  earlier := fun {x p} hp hx => by
    rw [h.getD_moved] at hp
    rw [h.has_moved]
    split at hp
    next heq =>
      subst heq
      obtain rfl := Option.some.inj hp
      exact ⟨.inr h.parent, h.lt⟩
    next => exact (h.earlier hp hx).imp_left .inr

/-- Nothing changes for the nodes that come earlier than the one that moves. -/
theorem up_moved_of_earlier (hx : Has parents x) (hrank : rank g entry x < rank g entry y) :
    Up (parents.setIfInBounds y (some c)) x z ↔ Up parents x z := by
  have hother : ∀ {b}, rank g entry b ≤ rank g entry x →
      (parents.setIfInBounds y (some c)).getD b none = parents.getD b none := fun {b} hb => by
    rw [h.getD_moved, if_neg]
    rintro rfl
    omega
  constructor
  · intro hz
    induction hz with
    | refl => exact .refl
    | tail hup hstep ih => exact ih.tail (by rwa [hother (h.has_of_up hx ih).2] at hstep)
  · intro hz
    induction hz with
    | refl => exact .refl
    | tail hup hstep ih => exact ih.tail (by rwa [hother (h.has_of_up hx hup).2])

theorem up_moved_parent : Up (parents.setIfInBounds y (some c)) c z ↔ Up parents c z :=
  h.up_moved_of_earlier h.parent h.lt

theorem up_moved_of_later (hz : Up parents w z) (hw : Has parents w)
    (hrank : rank g entry y ≤ rank g entry z) :
    Up (parents.setIfInBounds y (some c)) w z := by
  induction hz using Relation.ReflTransGen.head_induction_on with
  | refl => exact .refl
  | @head a b hstep hup ih =>
    have hb : Has parents b := (h.has_of_up hw (.single hstep)).1
    refine .head (b := b) ?_ (ih hb)
    rw [h.getD_moved, if_neg]
    · exact hstep
    · rintro rfl
      have := (h.earlier hstep h.ne).2
      have := (h.has_of_up hb hup).2
      omega

theorem up_moved_of_not (hz : Up parents w z) (hw : ¬ Up parents w y) :
    Up (parents.setIfInBounds y (some c)) w z := by
  induction hz using Relation.ReflTransGen.head_induction_on with
  | refl => exact .refl
  | head hstep _ ih =>
    refine .head ?_ (ih fun hup => hw (.head hstep hup))
    rw [h.getD_moved, if_neg]
    · exact hstep
    · rintro rfl
      exact hw .refl

theorem up_moved_through (hw : Has parents w) (hwy : Up parents w y) (hz : Up parents c z) :
    Up (parents.setIfInBounds y (some c)) w z := by
  have hwy' := h.up_moved_of_later hwy hw (Nat.le_refl _)
  exact hwy'.trans (.head h.getD_moved_self (h.up_moved_parent.2 hz))

theorem up_of_up_moved (hz : Up (parents.setIfInBounds y (some c)) w z) :
    Up parents w z ∨ (Up parents w y ∧ Up parents c z) := by
  induction hz using Relation.ReflTransGen.head_induction_on with
  | refl => exact .inl .refl
  | @head a b hstep hup ih =>
    rw [h.getD_moved] at hstep
    split at hstep
    next heq =>
      subst heq
      obtain rfl := Option.some.inj hstep
      exact .inr ⟨.refl, h.up_moved_parent.1 hup⟩
    next => exact ih.imp (.head hstep) (And.imp_left (.head hstep))

/-- What lies above a node under the one that moved, and comes earlier, lies above the new
parent. -/
theorem up_parent_of_up_moved (hw : Has parents w) (hwy : Up parents w y)
    (hz : Up (parents.setIfInBounds y (some c)) w z) (hrank : rank g entry z < rank g entry y) :
    Up parents c z := by
  have hwy' := h.up_moved_of_later hwy hw (Nat.le_refl _)
  have hunique : Relator.RightUnique fun x p =>
      (parents.setIfInBounds y (some c)).getD x none = some p :=
    fun _ _ _ hb hc => Option.some.inj (hb.symm.trans hc)
  rcases hwy'.total_of_right_unique hunique hz with hyz | hzy
  · rcases up_cases hyz with rfl | ⟨p, hp, hpz⟩
    · omega
    · obtain rfl := Option.some.inj (h.getD_moved_self.symm.trans hp)
      exact h.up_moved_parent.1 hpz
  · have := (h.rooted.has_of_up (h.rooted.has_of_up (h.has_moved.2 (.inr hw)) hz).1 hzy).2
    omega

end Moves

/-! ## One node of a sweep -/

/-- What holds when a sweep stands in front of the node at a place. -/
structure Sound (g : Digraph) (entry i : Nat) (parents : Array (Option Nat)) : Prop extends
    Rooted g entry parents where
  filled : ∀ {x}, g.Reaches entry x → rank g entry x < i → Has parents x
  closed : ∀ {x y}, Has parents x → g.Reaches entry y →
    rank g entry y < rank g entry x → Has parents y
  dominators : ∀ {x a}, Has parents x → ¬ Path g (· ≠ a) entry x → Up parents x a
  ahead : ∀ {x p z}, Has parents x → x ≠ entry → g.Reaches entry p → x ∈ g.successors p →
    rank g entry p < rank g entry x → Up parents x z → z ≠ x →
    rank g entry x < i ∨ i ≤ rank g entry z → Up parents p z
  highest : ∀ {x c}, Has parents x → x ≠ entry →
    (∀ p, g.Reaches entry p → x ∈ g.successors p → Has parents p → Up parents p c) → Up parents x c

theorem not_path_pred (hx : g.Reaches entry x) (hedge : x ∈ g.successors p)
    (hdom : ¬ Path g (· ≠ a) entry x) (hne : a ≠ x) : ¬ Path g (· ≠ a) entry p :=
  fun hpath => hdom (hpath.snoc hedge hx.lt_size hne.symm)

def Ready (g : Digraph) (entry : Nat) (parents : Array (Option Nat)) (y p : Nat) : Prop :=
  g.Reaches entry p ∧ y ∈ g.successors p ∧ Has parents p

/-- The sweep gives the node it stands at the parent nearest to its predecessors. -/
structure Adopts (g : Digraph) (entry i : Nat) (parents : Array (Option Nat)) (y c : Nat) : Prop
    extends Sound g entry i parents where
  node : g.Reaches entry y
  ne : y ≠ entry
  place : rank g entry y = i
  parent : Has parents c
  nearest : Nearest parents (Ready g entry parents y) c

namespace Adopts

variable (h : Adopts g entry i parents y c)
include h

theorem exists_ready : ∃ p, Ready g entry parents y p ∧ rank g entry p < i := by
  obtain ⟨p, hp, hedge, hlt⟩ := exists_earlier h.node h.ne
  rw [h.place] at hlt
  exact ⟨p, ⟨hp, hedge, h.filled hp hlt⟩, hlt⟩

theorem moves : Moves g entry parents y c where
  toRooted := h.toRooted
  node := h.node
  ne := h.ne
  parent := h.parent
  lt := by
    obtain ⟨p, hready, hlt⟩ := h.exists_ready
    have := (h.has_of_up hready.2.2 ((h.nearest c).1 .refl p hready)).2
    have := h.place
    omega

theorem up_parent_of_dominates (hdom : ¬ Path g (· ≠ a) entry y) (hne : a ≠ y) : Up parents c a :=
  (h.nearest a).2 fun _ ⟨_, hedge, hhas⟩ => h.dominators hhas (not_path_pred h.node hedge hdom hne)

/-- A node further up that dominates one under the node of the sweep dominates that node too: by way
of earlier predecessors, all of which lie under it. -/
theorem dominates_node (hw : Has parents w) (hwy : Up parents w y) (hdom : ¬ Path g (· ≠ a) entry w)
    (ha : rank g entry a < i) : ¬ Path g (· ≠ a) entry y := by
  induction hn : rank g entry w using Nat.strong_induction_on generalizing w with
  | _ n ih =>
    by_cases hyw : y = w
    · exact hyw ▸ hdom
    have hne : w ≠ entry := by
      rintro rfl
      exact h.ne (h.eq_of_up_root hwy)
    obtain ⟨p, hp, hedge, hlt⟩ := exists_earlier (h.reached hw) hne
    have hpy := h.ahead hw hne hp hedge hlt hwy hyw (.inr h.place.ge)
    have haw : a ≠ w := by
      rintro rfl
      have := (h.has_of_up hw hwy).2
      have := h.place
      omega
    exact ih _ (hn ▸ hlt) (h.closed hw hp hlt) hpy (not_path_pred (h.reached hw) hedge hdom haw) rfl

theorem dominators_moved (hw : Has (parents.setIfInBounds y (some c)) w)
    (hdom : ¬ Path g (· ≠ a) entry w) :
    Up (parents.setIfInBounds y (some c)) w a := by
  have hm := h.moves
  have hplace := h.place
  by_cases haw : a = w
  · exact haw ▸ .refl
  rcases hm.has_moved.1 hw with rfl | hw
  · have hup := hm.up_moved_parent.2 (h.up_parent_of_dominates hdom haw)
    exact .head hm.getD_moved_self hup
  have hwa := h.dominators hw hdom
  by_cases hrank : i ≤ rank g entry a
  · exact hm.up_moved_of_later hwa hw (by omega)
  by_cases hwy : Up parents w y
  · refine hm.up_moved_through hw hwy
      (h.up_parent_of_dominates (h.dominates_node hw hwy hdom (by omega)) ?_)
    rintro rfl
    omega
  · exact hm.up_moved_of_not hwa hwy

theorem ahead_moved (hx : Has (parents.setIfInBounds y (some c)) x) (hne : x ≠ entry)
    (hp : g.Reaches entry p) (hedge : x ∈ g.successors p) (hlt : rank g entry p < rank g entry x)
    (hup : Up (parents.setIfInBounds y (some c)) x z) (hzx : z ≠ x)
    (hplaces : rank g entry x < i + 1 ∨ i + 1 ≤ rank g entry z) :
    Up (parents.setIfInBounds y (some c)) p z := by
  have hm := h.moves
  have hplace := h.place
  by_cases hxy : x = y
  · subst hxy
    have hready : Ready g entry parents x p := ⟨hp, hedge, h.filled hp (by omega)⟩
    obtain ⟨q, hq, hqz⟩ := (up_cases hup).resolve_left hzx
    obtain rfl := Option.some.inj (hm.getD_moved_self.symm.trans hq)
    have hcz := hm.up_moved_parent.1 hqz
    exact (hm.up_moved_of_earlier hready.2.2 hlt).2 ((h.nearest z).1 hcz p hready)
  have hx := (hm.has_moved.1 hx).resolve_left hxy
  have hhas := h.closed hx hp hlt
  by_cases hxi : rank g entry x < i
  · rw [hm.up_moved_of_earlier hx (by omega)] at hup
    exact (hm.up_moved_of_earlier hhas (by omega)).2
      (h.ahead hx hne hp hedge hlt hup hzx (.inl hxi))
  · have hz : i < rank g entry z := by
      rcases hplaces with hplaces | hplaces
      · exact absurd (rank_inj (h.reached hx) (by omega)) hxy
      · exact hplaces
    have hxz : Up parents x z := by
      refine (hm.up_of_up_moved hup).resolve_right fun ⟨_, hcz⟩ => ?_
      have := (h.has_of_up h.parent hcz).2
      have := hm.lt
      omega
    exact hm.up_moved_of_later (h.ahead hx hne hp hedge hlt hxz hzx (.inr hz.le)) hhas (by omega)

theorem up_parent_of_has (hy : Has parents y) : Up parents y c :=
  h.highest hy h.ne fun p hp hedge hhas => (h.nearest c).1 .refl p ⟨hp, hedge, hhas⟩

/-- A node only moves up. -/
theorem up_of_moved (hw : Has parents w) (hup : Up (parents.setIfInBounds y (some c)) w z) :
    Up parents w z := by
  rcases h.moves.up_of_up_moved hup with hup | ⟨hwy, hcz⟩
  · exact hup
  · exact hwy.trans ((h.up_parent_of_has (h.has_of_up hw hwy).1).trans hcz)

theorem highest_moved {q : Nat} (hx : Has (parents.setIfInBounds y (some c)) x) (hne : x ≠ entry)
    (hall : ∀ p, g.Reaches entry p → x ∈ g.successors p → Has (parents.setIfInBounds y (some c)) p →
      Up (parents.setIfInBounds y (some c)) p q) : Up (parents.setIfInBounds y (some c)) x q := by
  have hm := h.moves
  have hplace := h.place
  have hall' : ∀ p, g.Reaches entry p → x ∈ g.successors p → Has parents p → Up parents p q :=
    fun p hp hedge hhas => h.up_of_moved hhas (hall p hp hedge (hm.has_moved.2 (.inr hhas)))
  by_cases hxy : x = y
  · subst hxy
    have hcq := (h.nearest q).2 fun p ⟨hp, hedge, hhas⟩ => hall' p hp hedge hhas
    exact .head hm.getD_moved_self (hm.up_moved_parent.2 hcq)
  have hx := (hm.has_moved.1 hx).resolve_left hxy
  have hxq := h.highest hx hne hall'
  by_cases hq : i ≤ rank g entry q
  · exact hm.up_moved_of_later hxq hx (by omega)
  by_cases hup : Up parents x y
  · -- the earlier predecessor lies under the node that moved as well
    obtain ⟨p, hp, hedge, hlt⟩ := exists_earlier (h.reached hx) hne
    have hhas := h.closed hx hp hlt
    have hpy := h.ahead hx hne hp hedge hlt hup (Ne.symm hxy) (.inr h.place.ge)
    have hpq := hall p hp hedge (hm.has_moved.2 (.inr hhas))
    exact hm.up_moved_through hx hup (hm.up_parent_of_up_moved hhas hpy hpq (by omega))
  · exact hm.up_moved_of_not hxq hup

theorem sound : Sound g entry (i + 1) (parents.setIfInBounds y (some c)) where
  toRooted := h.moves.rooted
  filled := fun {x} hx hlt => by
    rw [h.moves.has_moved]
    by_cases hxi : rank g entry x < i
    · exact .inr (h.filled hx hxi)
    · exact .inl (rank_inj hx (by rw [h.place]; omega))
  closed := fun {x z} hx hz hlt => by
    rw [h.moves.has_moved] at hx ⊢
    rcases hx with rfl | hx
    · exact .inr (h.filled hz (by rwa [h.place] at hlt))
    · exact .inr (h.closed hx hz hlt)
  dominators := h.dominators_moved
  ahead := h.ahead_moved
  highest := h.highest_moved

end Adopts

theorem Adopts.sound_of_eq (h : Adopts g entry i parents y c)
    (hsame : parents.getD y none = some c) :
    Sound g entry (i + 1) parents := by
  have hself : parents.setIfInBounds y (some c) = parents := by
    refine Array.ext (by simp) fun x hx hx' => ?_
    have hget := h.moves.getD_moved (x := x)
    rw [Table.getD_of_lt hx] at hget
    rw [hget]
    split
    next heq =>
      subst heq
      rw [← hsame, Table.getD_of_lt hx']
    next => rfl
  exact hself ▸ h.sound

/-- The places of the nodes, added up for their parents. -/
def weight (g : Digraph) (entry : Nat) (parents : Array (Option Nat)) : Nat :=
  totalOf (fun x => (parents.getD x none).elim g.size (rank g entry)) (g.reversePostorder entry)

theorem weight_le (g : Digraph) (entry : Nat) (parents : Array (Option Nat)) :
    weight g entry parents ≤ g.size * g.size := by
  have hlen := length_reversePostorder_le g entry
  refine (totalOf_le_mul fun x _ => ?_).trans (Nat.mul_le_mul_right _ hlen)
  cases parents.getD x none with
  | none => exact Nat.le_refl _
  | some p => exact List.idxOf_le_length.trans hlen

theorem Adopts.weight_lt (h : Adopts g entry i parents y c) (hne : parents.getD y none ≠ some c) :
    weight g entry (parents.setIfInBounds y (some c)) < weight g entry parents := by
  have hy : rank g entry c < (parents.getD y none).elim g.size (rank g entry) := by
    cases hp : parents.getD y none with
    | none => exact rank_lt_size (h.reached h.parent)
    | some p =>
      have hcy : c ≠ y := fun hcy => Nat.lt_irrefl _ (hcy ▸ h.moves.lt)
      obtain ⟨q, hq, hqc⟩ := (up_cases (h.up_parent_of_has ⟨p, hp⟩)).resolve_left hcy
      obtain rfl := Option.some.inj (hp.symm.trans hq)
      refine Nat.lt_of_le_of_ne (h.has_of_up (h.earlier hp h.ne).1 hqc).2 fun heq => hne ?_
      rw [hp, rank_inj (h.reached h.parent) heq]
  refine totalOf_lt_totalOf (fun x _ => ?_) (mem_reversePostorder.2 h.node) ?_
  · rw [h.moves.getD_moved]
    split
    next heq => exact heq ▸ hy.le
    next => exact Nat.le_refl _
  · rwa [h.moves.getD_moved_self]

/-! ## Whole sweeps -/

abbrev joinIn (g : Digraph) (entry steps : Nat) :
    Array (Option Nat) → Option Nat → Nat → Option Nat :=
  join steps (places g.size (g.reversePostorder entry))

abbrev adoptIn (g : Digraph) (entry steps : Nat) :
    Array (Option Nat) × Bool → Nat → Array (Option Nat) × Bool :=
  adopt steps (places g.size (g.reversePostorder entry)) (predecessors g (g.reversePostorder entry))

abbrev sweepIn (g : Digraph) (entry steps : Nat) : Array (Option Nat) → Array (Option Nat) × Bool :=
  sweep steps (places g.size (g.reversePostorder entry)) (predecessors g (g.reversePostorder entry))
    (g.reversePostorder entry)

/-- Each of the nodes has the parent nearest to its predecessors. -/
def Stable (g : Digraph) (entry : Nat) (parents : Array (Option Nat)) (ys : List Nat) : Prop :=
  ∀ y ∈ ys, ∃ c, parents.getD y none = some c ∧ Nearest parents (Ready g entry parents y) c

section

variable {steps : Nat} (hsteps : 2 * g.size ≤ steps)
include hsteps

/-- More steps than the places of two nodes add up to make no difference. -/
theorem Rooted.adopt_eq (h : Rooted g entry parents) (changed : Bool) (y : Nat) :
    adoptIn g entry steps (parents, changed) y =
      adoptIn g entry (2 * g.size) (parents, changed) y := by
  have hfound := h.joins_unique
    (h.joins_foldl hsteps joins_none ((predecessors g (g.reversePostorder entry)).getD y []))
    (h.joins_foldl (Nat.le_refl _) joins_none _)
  simp only [adoptIn, adopt, hfound]

theorem Sound.exists_adopts (h : Sound g entry i parents) (hy : g.Reaches entry y) (hne : y ≠ entry)
    (hplace : rank g entry y = i) :
    ∃ c, Adopts g entry i parents y c ∧
      ((predecessors g (g.reversePostorder entry)).getD y []).foldl
        (joinIn g entry steps parents) none = some c := by
  have hjoins :=
    h.joins_foldl hsteps joins_none ((predecessors g (g.reversePostorder entry)).getD y [])
  simp only [false_or, mem_predecessors hy.lt_size, and_assoc] at hjoins
  cases hfound : ((predecessors g (g.reversePostorder entry)).getD y []).foldl
    (joinIn g entry steps parents) none with
  | none =>
    obtain ⟨p, hp, hedge, hlt⟩ := exists_earlier hy hne
    exact absurd ⟨hp, hedge, h.filled hp (hplace ▸ hlt)⟩ (hjoins.1 hfound p)
  | some c =>
    obtain ⟨hc, hnearest⟩ := hjoins.2 c hfound
    exact ⟨c, ⟨h, hy, hne, hplace, hc, hnearest⟩, rfl⟩

/-- At each node either nothing changes, or it moves up and the change is noted. -/
theorem Sound.adopt_cases (h : Sound g entry i parents) (hy : g.Reaches entry y) (hne : y ≠ entry)
    (hplace : rank g entry y = i) :
    ∃ c, Adopts g entry i parents y c ∧
      (parents.getD y none = some c ∧
        (∀ changed, adoptIn g entry steps (parents, changed) y = (parents, changed)) ∨
        parents.getD y none ≠ some c ∧
          ∀ changed, adoptIn g entry steps (parents, changed) y =
            (parents.setIfInBounds y (some c), true)) := by
  obtain ⟨c, hadopts, hfound⟩ := h.exists_adopts hsteps hy hne hplace
  refine ⟨c, hadopts, ?_⟩
  simp only [adoptIn, adopt, hfound, Option.isSome_some, Bool.true_and, bne_iff_ne]
  by_cases hsame : parents.getD y none = some c
  · exact .inl ⟨hsame, fun _ => if_neg (not_not.2 hsame)⟩
  · exact .inr ⟨hsame, fun _ => if_pos hsame⟩

/-- By the nodes that are still to come, one after the other. -/
theorem Sound.foldl (ys : List Nat) (before : List Nat) (hbefore : before ≠ [])
    (horder : g.reversePostorder entry = before ++ ys) (h : Sound g entry before.length parents)
    (changed : Bool) :
    let r := ys.foldl (adoptIn g entry steps) (parents, changed)
    r = ys.foldl (adoptIn g entry (2 * g.size)) (parents, changed) ∧
      Sound g entry (g.reversePostorder entry).length r.1 ∧
      (r = (parents, changed) ∧ Stable g entry parents ys ∨
        r.2 = true ∧ weight g entry r.1 < weight g entry parents) := by
  induction ys generalizing before parents changed with
  | nil =>
    rw [List.append_nil] at horder
    exact ⟨rfl, horder ▸ h, .inl ⟨rfl, by simp [Stable]⟩⟩
  | cons y ys ih =>
    have hy : g.Reaches entry y := mem_reversePostorder.1 (by simp [horder])
    have hplace : rank g entry y = before.length := rank_eq_of_split horder
    have hne : y ≠ entry := by
      rintro rfl
      rw [rank_entry h.inside] at hplace
      exact hbefore (List.length_eq_zero_iff.1 hplace.symm)
    have horder' : g.reversePostorder entry = (before ++ [y]) ++ ys := by simp [horder]
    have hlen : (before ++ [y]).length = before.length + 1 := by simp
    obtain ⟨c, hadopts, ⟨hsame, hadopt⟩ | ⟨hmoved, hadopt⟩⟩ := h.adopt_cases hsteps hy hne hplace
    · obtain ⟨heq, hsound, hrest⟩ :=
        ih (before ++ [y]) (by simp) horder' (hlen ▸ hadopts.sound_of_eq hsame) changed
      simp only [List.foldl_cons, ← h.adopt_eq hsteps, hadopt]
      refine ⟨heq, hsound, hrest.imp_left fun ⟨heq, hstable⟩ => ⟨heq, ?_⟩⟩
      exact List.forall_mem_cons.2 ⟨⟨c, hsame, hadopts.nearest⟩, hstable⟩
    · obtain ⟨heq, hsound, hrest⟩ :=
        ih (before ++ [y]) (by simp) horder' (hlen ▸ hadopts.sound) true
      simp only [List.foldl_cons, ← h.adopt_eq hsteps, hadopt]
      have hlt := hadopts.weight_lt hmoved
      refine ⟨heq, hsound, .inr ?_⟩
      rcases hrest with ⟨heq, -⟩ | ⟨hchanged, hless⟩
      · simp [heq, hlt]
      · exact ⟨hchanged, hless.trans hlt⟩

theorem Sound.sweep (h : Sound g entry 1 parents) :
    let r := sweepIn g entry steps parents
    r = sweepIn g entry (2 * g.size) parents ∧ Sound g entry (g.reversePostorder entry).length r.1 ∧
      (r = (parents, false) ∧ Stable g entry parents ((g.reversePostorder entry).drop 1) ∨
        r.2 = true ∧ weight g entry r.1 < weight g entry parents) := by
  obtain ⟨rest, horder⟩ := exists_order h.inside
  refine Sound.foldl hsteps _ [entry] (by simp) ?_ h false
  simp [horder]

end

/-- What a whole sweep leaves holds at the start of the next. -/
theorem Sound.restart (h : Sound g entry (g.reversePostorder entry).length parents) :
    Sound g entry 1 parents where
  toRooted := h.toRooted
  filled := fun hx _ => h.filled hx (rank_lt hx)
  closed := h.closed
  dominators := h.dominators
  ahead := fun hx hne hp hedge hlt hup hzx _ =>
    h.ahead hx hne hp hedge hlt hup hzx (.inl (rank_lt (h.reached hx)))
  highest := h.highest

abbrev settleIn (g : Digraph) (entry steps : Nat) : Nat → Array (Option Nat) → Array (Option Nat) :=
  settle steps (places g.size (g.reversePostorder entry))
    (predecessors g (g.reversePostorder entry)) (g.reversePostorder entry)

/-- Enough sweeps lead to a tree that the next leaves as it is, and more make no difference. -/
theorem Sound.settle {steps : Nat} (hsteps : 2 * g.size ≤ steps) (n : Nat)
    (h : Sound g entry 1 parents) (hn : weight g entry parents < n) :
    let r := settleIn g entry steps n parents
    (∀ m, weight g entry parents < m → settleIn g entry (2 * g.size) m parents = r) ∧
      Sound g entry (g.reversePostorder entry).length r ∧
        Stable g entry r ((g.reversePostorder entry).drop 1) := by
  induction n generalizing parents with
  | zero => omega
  | succ n ih =>
    obtain ⟨hsteps', hsound, ⟨heq, hstable⟩ | ⟨hchanged, hlt⟩⟩ := h.sweep hsteps
    · rw [heq] at hsound hsteps'
      simp only [settleIn, Dominators.settle, heq, Bool.false_eq_true, if_false]
      refine ⟨fun m hm => ?_, hsound, hstable⟩
      obtain ⟨m, rfl⟩ := Nat.exists_eq_add_of_lt hm
      simp [Dominators.settle, ← hsteps']
    · obtain ⟨hmore, hsettled⟩ := ih hsound.restart (by omega)
      simp only [settleIn, Dominators.settle, hchanged, if_true]
      refine ⟨fun m hm => ?_, hsettled⟩
      obtain ⟨m, rfl⟩ : ∃ k, m = k + 1 := ⟨m - 1, by omega⟩
      simp only [Dominators.settle, ← hsteps', hchanged, if_true]
      exact hmore m (by omega)

/-! ## The settled tree -/

theorem sound_start (hentry : entry < g.size) :
    Sound g entry 1 ((Array.replicate g.size none).setIfInBounds entry (some entry)) := by
  have hget : ∀ {x p : Nat},
      ((Array.replicate g.size none).setIfInBounds entry (some entry)).getD x none = some p ↔
        x = entry ∧ p = entry := fun {x p} => by
    rw [Table.getD_setIfInBounds, Table.getD_replicate]
    grind
  have hhas : ∀ {x}, Has ((Array.replicate g.size none).setIfInBounds entry (some entry)) x ↔
      x = entry := fun {x} => by
    simp only [Has, hget, exists_and_left, exists_eq, and_true]
  have hrank := rank_entry hentry
  constructor
  case toRooted =>
    refine ⟨hentry, by simp, hget.2 ⟨rfl, rfl⟩, fun hx => ?_, fun hp hx => absurd (hget.1 hp).1 hx⟩
    obtain rfl := hhas.1 hx
    exact .refl hentry trivial
  case filled => exact fun hx hlt => hhas.2 (rank_inj hx (by omega))
  case closed =>
    intro x y hx _ hlt
    rw [hhas.1 hx] at hlt
    omega
  case dominators =>
    intro x a hx hdom
    rw [hhas.1 hx] at hdom ⊢
    by_cases ha : a = entry
    · exact ha ▸ .refl
    · exact absurd (.refl hentry (Ne.symm ha)) hdom
  case ahead => exact fun hx hne => absurd (hhas.1 hx) hne
  case highest => exact fun hx hne => absurd (hhas.1 hx) hne

/-- Once nothing changes any more, what lies above a node is what every path to it passes. -/
theorem Sound.up_iff (h : Sound g entry (g.reversePostorder entry).length parents)
    (hstable : Stable g entry parents ((g.reversePostorder entry).drop 1))
    (hx : g.Reaches entry x) :
    Up parents x a ↔ ¬ Path g (· ≠ a) entry x := by
  have hhas : ∀ {x}, g.Reaches entry x → Has parents x := fun hx => h.filled hx (rank_lt hx)
  refine ⟨fun hup hpath => ?_, h.dominators (hhas hx)⟩
  clear hx
  induction hpath with
  | refl _ hne => exact hne (h.eq_of_up_root hup).symm
  | @snoc p y hpath hedge hlt hne ih =>
    obtain ⟨q, hq, hqa⟩ := (up_cases hup).resolve_left (Ne.symm hne)
    by_cases hy : y = entry
    · subst hy
      exact hne (h.eq_of_up_root hup).symm
    have hp : g.Reaches entry p := hpath.mono fun _ _ => trivial
    have hmem : y ∈ (g.reversePostorder entry).drop 1 := by
      obtain ⟨rest, horder⟩ := exists_order h.inside
      have hy' := mem_reversePostorder.2 (hp.snoc hedge hlt trivial)
      simpa [horder, hy] using hy'
    obtain ⟨c, hc, hnearest⟩ := hstable y hmem
    obtain rfl := Option.some.inj (hq.symm.trans hc)
    exact ih ((hnearest a).1 hqa p ⟨hp, hedge, hhas hp⟩)

/-- The tree that a graph settles to, from which its dominators are read. -/
theorem exists_settled (hentry : entry < g.size) :
    ∃ parents, Sound g entry (g.reversePostorder entry).length parents ∧
      Stable g entry parents ((g.reversePostorder entry).drop 1) ∧
      ∀ sweeps steps, g.size * g.size < sweeps → 2 * g.size ≤ steps →
        settled g entry sweeps steps = parents := by
  have hstart := sound_start hentry
  have hweight := weight_le g entry ((Array.replicate g.size none).setIfInBounds entry (some entry))
  obtain ⟨-, hsound, hstable⟩ := hstart.settle (Nat.le_refl _) (g.size * g.size + 1) (by omega)
  refine ⟨_, hsound, hstable, fun sweeps steps hsweeps hsteps => ?_⟩
  exact ((hstart.settle hsteps sweeps (by omega)).1 _ (by omega)).symm

end BytecodeOpt.Dominators
