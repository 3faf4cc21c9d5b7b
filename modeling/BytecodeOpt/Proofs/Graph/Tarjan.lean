import BytecodeOpt.Graph.Components
import BytecodeOpt.Proofs.Graph.DepthFirst
import Mathlib.Data.List.Nodup

/-!
# What the search for components keeps

Of two nodes on the stack the one entered first reaches the other, and every node on the stack leads
back to one that the search is in.  No edge that has been followed leads further down the stack than
the lowest number noted by the nodes the search is in.  So when a node is left that has noted
nothing lower than its own number, the nodes above it on the stack are its component.
-/

namespace BytecodeOpt.Digraph.Tarjan

variable {g : Digraph} {keep : Nat → Prop} {s : Tarjan} {frames : Frames} {rest : List Nat}
  {v w x y z n : Nat}

def number (s : Tarjan) (x : Nat) : Nat := (s.indexOf? x).getD 0

/-- On the stack or in a complete component. -/
def Held (s : Tarjan) (x : Nat) : Prop := x ∈ s.stack ∨ ∃ members ∈ s.found, x ∈ members

def Pending (frames : Frames) (x w : Nat) : Prop := ∃ f ∈ frames, f.1 = x ∧ w ∈ f.2

/-- The nodes the search is in, the last one entered first. -/
abbrev nodes (frames : Frames) : List Nat := frames.map Prod.fst

structure Inv (g : Digraph) (keep : Nat → Prop) (s : Tarjan) (frames : Frames) : Prop where
  index_size : s.index.size = g.size
  low_size : s.lowlink.size = g.size
  mark_size : s.onStack.size = g.size
  entered : ∀ x < g.size, (s.indexOf? x).isSome = true ↔ Held s x
  inside : ∀ x ∈ s.stack, x < g.size ∧ keep x ∧ s.number x < s.count
  apart : ∀ x ∈ s.stack, ∀ members ∈ s.found, x ∉ members
  marked : ∀ x, s.onStack.getD x false = true ↔ x ∈ s.stack
  sorted : s.stack.Pairwise fun a b => s.number b < s.number a
  framed : ∀ v ∈ nodes frames, v ∈ s.stack
  nested : (nodes frames).Pairwise fun a b => s.number b < s.number a
  edges : ∀ f ∈ frames, ∀ w ∈ f.2, w ∈ g.successors f.1
  links : ∀ x ∈ s.stack, ∀ y ∈ s.stack, s.number x ≤ s.number y → g.Reaches x y
  returns : ∀ y ∈ s.stack, ∃ u ∈ nodes frames, s.number u ≤ s.number y ∧ g.Reaches y u
  followed : ∀ x, Held s x → ∀ w ∈ g.successors x, Pending frames x w ∨ (s.indexOf? w).isSome = true
  lowest : ∀ v ∈ nodes frames, s.low v ≤ s.number v ∧
    ∃ z ∈ s.stack, s.number z = s.low v ∧ g.Reaches v z
  bound : ∀ v ∈ nodes frames, ∀ y ∈ s.stack, s.number v ≤ s.number y → ∀ z ∈ g.successors y,
    z ∈ s.stack → s.number z < s.number v →
      Pending frames y z ∨ ∃ u ∈ nodes frames, s.number v ≤ s.number u ∧ s.low u ≤ s.number z
  classes : ∀ members ∈ s.found, ∃ a, keep a ∧ ∀ b, b ∈ members ↔ g.Reaches a b ∧ g.Reaches b a

/-! ## Changes of the state -/

theorem indexOf?_enter (h : w < s.index.size) :
    (s.enter w).indexOf? x = if x = w then some s.count else s.indexOf? x := by
  rw [indexOf?, enter, Table.getD_setIfInBounds]
  grind [indexOf?]

theorem number_enter (h : w < s.index.size) :
    (s.enter w).number x = if x = w then s.count else s.number x := by
  rw [number, indexOf?_enter h]
  split <;> rfl

theorem low_enter (h : w < s.lowlink.size) :
    (s.enter w).low x = if x = w then s.count else s.low x := by
  rw [low, enter, Table.getD_setIfInBounds]
  grind [low]

theorem low_lower (h : v < s.lowlink.size) :
    (s.lower v n).low x = if x = v then min (s.low v) n else s.low x := by
  rw [low, lower, Table.getD_setIfInBounds]
  grind [low]

@[simp] theorem indexOf?_lower : (s.lower v n).indexOf? x = s.indexOf? x := rfl

@[simp] theorem number_lower : (s.lower v n).number x = s.number x := rfl

theorem popTo_append {top : List Nat} (h : v ∉ top) (bottom : List Nat) :
    popTo v (top ++ v :: bottom) = (top ++ [v], bottom) := by
  induction top with
  | nil => simp [popTo]
  | cons x top ih =>
    have hx : x ≠ v := fun heq => h (by simp [heq])
    simp [popTo, hx, ih fun hmem => h (List.mem_cons_of_mem _ hmem)]

theorem size_foldl_unmark (members : List Nat) (t : Array Bool) :
    (members.foldl (fun onStack m => onStack.setIfInBounds m false) t).size = t.size := by
  induction members generalizing t with
  | nil => rfl
  | cons m members ih => rw [List.foldl_cons, ih, Array.size_setIfInBounds]

theorem getD_foldl_unmark (members : List Nat) (t : Array Bool) :
    (members.foldl (fun onStack m => onStack.setIfInBounds m false) t).getD x false = true ↔
      t.getD x false = true ∧ x ∉ members := by
  induction members generalizing t with
  | nil => simp
  | cons m members ih =>
    rw [List.foldl_cons, ih, Table.getD_setIfInBounds]
    by_cases hx : x = m
    · subst hx
      by_cases hlt : x < t.size
      · simp [hlt]
      · simp [hlt]
    · simp [hx, Ne.symm hx]

theorem Inv.number_inj (h : Inv g keep s frames) (hx : x ∈ s.stack) (hy : y ∈ s.stack)
    (heq : s.number x = s.number y) : x = y :=
  List.inj_on_of_nodup_map (List.pairwise_map.2 (h.sorted.imp Nat.ne_of_gt)) hx hy heq

theorem Inv.indexOf?_eq (h : Inv g keep s frames) (hx : x ∈ s.stack) :
    s.indexOf? x = some (s.number x) := by
  obtain ⟨i, hi⟩ := Option.isSome_iff_exists.1 ((h.entered x (h.inside x hx).1).2 (.inl hx))
  rw [number, hi, Option.getD_some]

theorem Inv.lt_size (h : Inv g keep s frames) (hw : s.indexOf? w = none) : w < g.size :=
  Nat.lt_of_not_le fun hle => by
    rw [indexOf?, Table.getD_of_le (by rwa [h.index_size])] at hw
    simp at hw

theorem number_le_top
    (h : (nodes ((v, rest) :: frames)).Pairwise fun a b => s.number b < s.number a)
    (hx : x ∈ nodes ((v, rest) :: frames)) : s.number x ≤ s.number v := by
  rcases List.mem_cons.1 hx with rfl | hx
  · exact Nat.le_refl _
  · exact ((List.pairwise_cons.1 h).1 x hx).le

/-! ## The steps -/

/-- A node may note a number on the stack that it reaches. -/
theorem Inv.lower (h : Inv g keep s frames) (hv : v ∈ nodes frames) (hz : z ∈ s.stack)
    (hreach : g.Reaches v z) :
    Inv g keep (s.lower v (s.number z)) frames := by
  have hlow : ∀ {x}, (s.lower v (s.number z)).low x =
      if x = v then min (s.low v) (s.number z) else s.low x :=
    low_lower (by rw [h.low_size]; exact (h.inside v (h.framed v hv)).1)
  refine { h with
    low_size := by simpa [Tarjan.lower] using h.low_size
    lowest := fun u hu => ?_
    bound := ?_ }
  · obtain ⟨hle, y, hy, hnumber, hpath⟩ := h.lowest u hu
    rw [hlow]
    split
    next heq =>
      subst heq
      refine ⟨(Nat.min_le_left _ _).trans hle, ?_⟩
      rcases Nat.le_total (s.low u) (s.number z) with hmin | hmin
      · exact ⟨y, hy, by rwa [Nat.min_eq_left hmin], hpath⟩
      · exact ⟨z, hz, by rw [Nat.min_eq_right hmin, number_lower], hreach⟩
    next => exact ⟨hle, y, hy, hnumber, hpath⟩
  · intro x hx y hy hle z' hz' hstack hlt
    refine (h.bound x hx y hy hle z' hz' hstack hlt).imp_right fun ⟨u, hu, hnumber, hseen⟩ =>
      ⟨u, hu, hnumber, ?_⟩
    rw [hlow]
    split
    next heq => exact (Nat.min_le_left _ _).trans (heq ▸ hseen)
    next => exact hseen

theorem pending_middle {above : Frames} (hp : Pending (above ++ (v, w :: rest) :: frames) x y) :
    Pending (above ++ (v, rest) :: frames) x y ∨ (x = v ∧ y = w) := by
  obtain ⟨f, hf, rfl, hy⟩ := hp
  simp only [List.mem_append, List.mem_cons] at hf
  rcases hf with hf | rfl | hf
  · exact .inl ⟨f, by simp [hf], rfl, hy⟩
  · rcases List.mem_cons.1 hy with rfl | hy
    · exact .inr ⟨rfl, rfl⟩
    · exact .inl ⟨(v, rest), by simp, rfl, hy⟩
  · exact .inl ⟨f, by simp [hf], rfl, hy⟩

/-- An edge counts as followed when its target has been entered and is noted if it lies further
down. -/
theorem Inv.follow (above : Frames) (h : Inv g keep s (above ++ (v, w :: rest) :: frames))
    (hw : (s.indexOf? w).isSome = true)
    (hseen : w ∈ s.stack → s.number w < s.number v → s.low v ≤ s.number w) :
    Inv g keep s (above ++ (v, rest) :: frames) := by
  have hnodes : nodes (above ++ (v, w :: rest) :: frames) =
      nodes (above ++ (v, rest) :: frames) := by simp
  refine { h with
    framed := hnodes ▸ h.framed
    nested := hnodes ▸ h.nested
    edges := ?_
    returns := hnodes ▸ h.returns
    followed := fun x hx y hy => ?_
    lowest := hnodes ▸ h.lowest
    bound := fun x hx y hy hle z hz hstack hlt => ?_ }
  · intro f hf y hy
    simp only [List.mem_append, List.mem_cons] at hf
    rcases hf with hf | rfl | hf
    · exact h.edges f (by simp [hf]) y hy
    · exact h.edges (v, w :: rest) (by simp) y (List.mem_cons_of_mem _ hy)
    · exact h.edges f (by simp [hf]) y hy
  · rcases h.followed x hx y hy with hp | hentered
    · exact (pending_middle hp).imp_right fun ⟨_, heq⟩ => heq ▸ hw
    · exact .inr hentered
  · rw [← hnodes] at hx ⊢
    rcases h.bound x hx y hy hle z hz hstack hlt with hp | hseen'
    · refine (pending_middle hp).imp_right fun ⟨hyv, hzw⟩ => ?_
      subst hyv hzw
      exact ⟨y, by simp, hle, hseen hstack (by omega)⟩
    · exact .inr hseen'

theorem Pending.cons (hp : Pending frames x y) (f : Nat × List Nat) :
    Pending (f :: frames) x y := by
  obtain ⟨f', hf, hx, hy⟩ := hp
  exact ⟨f', List.mem_cons_of_mem _ hf, hx, hy⟩

/-- The search enters a node that everything on the stack reaches. -/
theorem Inv.enter (h : Inv g keep s frames) (hw : s.indexOf? w = none) (hlt : w < g.size)
    (hkeep : keep w) (hreach : ∀ x ∈ s.stack, g.Reaches x w) :
    Inv g keep (s.enter w) ((w, g.successors w) :: frames) := by
  have hnew : ¬ Held s w := fun hheld => by
    have := (h.entered w hlt).2 hheld
    simp [hw] at this
  have hne : ∀ {x}, x ∈ s.stack → x ≠ w := fun hx heq => hnew (.inl (heq ▸ hx))
  have hindex : ∀ {x}, (s.enter w).indexOf? x = if x = w then some s.count else s.indexOf? x :=
    indexOf?_enter (by rwa [h.index_size])
  have hcount : (s.enter w).number w = s.count := by
    rw [number, hindex, if_pos rfl, Option.getD_some]
  have hnumber : ∀ {x}, x ∈ s.stack → (s.enter w).number x = s.number x := fun hx => by
    rw [number, hindex, if_neg (hne hx), number]
  have hlow : ∀ {x}, (s.enter w).low x = if x = w then s.count else s.low x :=
    low_enter (by rwa [h.low_size])
  have hless : ∀ {x}, x ∈ s.stack → (s.enter w).number x < s.count := fun hx =>
    hnumber hx ▸ (h.inside _ hx).2.2
  have hedges : ∀ {y}, y ∈ g.successors w → Pending ((w, g.successors w) :: frames) w y := fun hy =>
    ⟨(w, g.successors w), List.mem_cons_self, rfl, hy⟩
  constructor
  case index_size => simpa [Tarjan.enter] using h.index_size
  case low_size => simpa [Tarjan.enter] using h.low_size
  case mark_size => simpa [Tarjan.enter] using h.mark_size
  case entered =>
    intro x hx
    rw [hindex]
    by_cases hxw : x = w
    · simp [hxw, Held, Tarjan.enter]
    · rw [if_neg hxw, h.entered x hx]
      simp [Held, Tarjan.enter, hxw]
  case inside =>
    refine List.forall_mem_cons.2 ⟨⟨hlt, hkeep, hcount ▸ Nat.lt_succ_self _⟩, fun x hx => ?_⟩
    exact ⟨(h.inside x hx).1, (h.inside x hx).2.1, (hless hx).trans (Nat.lt_succ_self _)⟩
  case apart =>
    refine List.forall_mem_cons.2 ⟨fun members hmembers hmem =>
      hnew (.inr ⟨members, hmembers, hmem⟩), h.apart⟩
  case marked =>
    intro x
    simp only [Tarjan.enter, Table.getD_setIfInBounds, List.mem_cons, ← h.marked, h.mark_size]
    grind
  case sorted =>
    refine List.pairwise_cons.2 ⟨fun x hx => hcount ▸ hless hx,
      h.sorted.imp_of_mem fun ha hb hab => ?_⟩
    rwa [hnumber ha, hnumber hb]
  case framed =>
    exact List.forall_mem_cons.2 ⟨List.mem_cons_self,
      fun x hx => List.mem_cons_of_mem _ (h.framed x hx)⟩
  case nested =>
    refine List.pairwise_cons.2 ⟨fun x hx => hcount ▸ hless (h.framed x hx),
      h.nested.imp_of_mem fun ha hb hab => ?_⟩
    rwa [hnumber (h.framed _ ha), hnumber (h.framed _ hb)]
  case edges => exact List.forall_mem_cons.2 ⟨fun _ => id, h.edges⟩
  case links =>
    refine List.forall_mem_cons.2
      ⟨List.forall_mem_cons.2 ⟨fun _ => .refl hlt trivial, fun y hy hle => ?_⟩,
      fun x hx => List.forall_mem_cons.2 ⟨fun _ => hreach x hx, fun y hy hle => ?_⟩⟩
    · have := hless hy
      omega
    · rw [hnumber hx, hnumber hy] at hle
      exact h.links x hx y hy hle
  case returns =>
    refine List.forall_mem_cons.2 ⟨⟨w, List.mem_cons_self, Nat.le_refl _, .refl hlt trivial⟩,
      fun y hy => ?_⟩
    obtain ⟨u, hu, hle, hpath⟩ := h.returns y hy
    exact ⟨u, List.mem_cons_of_mem _ hu, by rwa [hnumber (h.framed u hu), hnumber hy], hpath⟩
  case followed =>
    intro x hx y hy
    by_cases hxw : x = w
    · subst hxw
      exact .inl (hedges hy)
    · have hheld : Held s x := hx.imp_left fun hmem => (List.mem_cons.1 hmem).resolve_left hxw
      refine (h.followed x hheld y hy).imp (·.cons _) fun hentered => ?_
      rw [hindex]
      split
      · rfl
      · exact hentered
  case lowest =>
    refine List.forall_mem_cons.2 ⟨⟨?_, w, List.mem_cons_self, ?_, .refl hlt trivial⟩,
      fun u hu => ?_⟩
    · rw [hlow, if_pos rfl, hcount]
    · rw [hlow, if_pos rfl, hcount]
    · obtain ⟨hle, z, hz, heq, hpath⟩ := h.lowest u hu
      rw [hlow, if_neg (hne (h.framed u hu)), hnumber (h.framed u hu)]
      exact ⟨hle, z, List.mem_cons_of_mem _ hz, (hnumber hz).trans heq, hpath⟩
  case bound =>
    intro x hx y hy hle z hz hstack hlt'
    by_cases hyw : y = w
    · subst hyw
      exact .inl (hedges hz)
    replace hy := (List.mem_cons.1 hy).resolve_left hyw
    have hxw : x ≠ w := fun heq => by
      have := hless hy
      rw [heq] at hle
      omega
    replace hx := (List.mem_cons.1 hx).resolve_left hxw
    have hzw : z ≠ w := fun heq => by
      have := hless (h.framed x hx)
      rw [heq] at hlt'
      omega
    have hz' := (List.mem_cons.1 hstack).resolve_left hzw
    rw [hnumber (h.framed x hx), hnumber hy] at hle
    rw [hnumber (h.framed x hx), hnumber hz'] at hlt'
    refine (h.bound x hx y hy hle z hz hz' hlt').imp (·.cons _) fun ⟨u, hu, hnum, hseen⟩ => ?_
    refine ⟨u, List.mem_cons_of_mem _ hu, ?_, ?_⟩
    · rwa [hnumber (h.framed x hx), hnumber (h.framed u hu)]
    · rwa [hlow, if_neg (hne (h.framed u hu)), hnumber hz']
  case classes => exact h.classes

theorem pending_tail (hp : Pending ((v, []) :: frames) x y) : Pending frames x y := by
  obtain ⟨f, hf, hx, hy⟩ := hp
  rcases List.mem_cons.1 hf with rfl | hf
  · simp at hy
  · exact ⟨f, hf, hx, hy⟩

/-- A node that has noted a lower number stays on the stack when the search leaves it. -/
theorem Inv.stay (h : Inv g keep s ((v, []) :: frames)) (hlow : s.low v < s.number v)
    (hparent : ∀ f ∈ frames.head?, s.low f.1 ≤ s.low v) : Inv g keep s frames := by
  refine { h with
    framed := fun x hx => h.framed x (List.mem_cons_of_mem _ hx)
    nested := (List.pairwise_cons.1 h.nested).2
    edges := fun f hf => h.edges f (List.mem_cons_of_mem _ hf)
    returns := fun y hy => ?_
    followed := fun x hx w hw => (h.followed x hx w hw).imp_left pending_tail
    lowest := fun x hx => h.lowest x (List.mem_cons_of_mem _ hx)
    bound := fun x hx y hy hle z hz hstack hlt => ?_ }
  · obtain ⟨u, hu, hle, hpath⟩ := h.returns y hy
    rcases List.mem_cons.1 hu with rfl | hu
    · -- what `u` has noted lies further down and leads back to another node that the search is in
      obtain ⟨-, z, hz, hnumber, hz'⟩ := h.lowest u List.mem_cons_self
      obtain ⟨u', hu', hle', hpath'⟩ := h.returns z hz
      rcases List.mem_cons.1 hu' with rfl | hu'
      · omega
      · exact ⟨u', hu', by omega, hpath.trans (hz'.trans hpath')⟩
    · exact ⟨u, hu, hle, hpath⟩
  · rcases h.bound x (List.mem_cons_of_mem _ hx) y hy hle z hz hstack hlt with
      hp | ⟨u, hu, hnumber, hseen⟩
    · exact .inl (pending_tail hp)
    · rcases List.mem_cons.1 hu with rfl | hu
      · cases frames with
        | nil => simp at hx
        | cons f frames =>
          exact .inr ⟨f.1, by simp, number_le_top (List.pairwise_cons.1 h.nested).2 hx,
            (hparent f rfl).trans hseen⟩
      · exact .inr ⟨u, hu, hnumber, hseen⟩

/-- A node reached from `v` and leading back to it lies above `v` on the stack, when all that was
entered after `v` is followed and nothing lower was noted. -/
theorem Inv.above_of_reaches (h : Inv g keep s ((v, []) :: frames)) (hlow : s.low v = s.number v)
    (hv : g.Reaches v x) (hback : g.Reaches x v) : x ∈ s.stack ∧ s.number v ≤ s.number x := by
  have hstack := h.framed v List.mem_cons_self
  induction hv with
  | refl => exact ⟨hstack, Nat.le_refl _⟩
  | @snoc p c hp hmem hlt htrivial ih =>
    obtain ⟨hp', hle⟩ := ih ((Path.refl hp.lt_size trivial |>.snoc hmem hlt trivial).trans hback)
    have hdone : ¬ Pending ((v, []) :: frames) p c := fun hpending => by
      obtain ⟨f, hf, rfl, -⟩ := pending_tail hpending
      have : s.number f.1 < s.number v := (List.pairwise_cons.1 h.nested).1 f.1
        (List.mem_map_of_mem hf)
      omega
    have hheld := (h.entered c hlt).1 ((h.followed p (.inl hp') c hmem).resolve_left hdone)
    have hc : c ∈ s.stack := by
      refine hheld.resolve_right fun ⟨members, hmembers, hin⟩ =>
        h.apart v hstack members hmembers ?_
      obtain ⟨a, -, hclass⟩ := h.classes members hmembers
      obtain ⟨hac, hca⟩ := (hclass c).1 hin
      exact (hclass v).2 ⟨hac.trans hback, (hp.snoc hmem hlt trivial).trans hca⟩
    refine ⟨hc, Nat.le_of_not_lt fun hless => ?_⟩
    rcases h.bound v List.mem_cons_self p hp' hle c hmem hc hless with
      hpending | ⟨u, hu, hnumber, hseen⟩
    · exact hdone hpending
    · have htop : u = v := h.number_inj (h.framed u hu) hstack
        (Nat.le_antisymm (number_le_top h.nested hu) hnumber)
      rw [htop] at hseen
      omega

section

variable {top bottom : List Nat} (hstack : s.stack = top ++ v :: bottom)
include hstack

theorem mem_stack_iff : x ∈ s.stack ↔ x ∈ top ++ [v] ∨ x ∈ bottom := by
  simp [hstack, or_assoc]

theorem Inv.le_of_mem_top (h : Inv g keep s frames) (hx : x ∈ top ++ [v]) :
    s.number v ≤ s.number x := by
  have hsorted := h.sorted
  rw [hstack, List.pairwise_append] at hsorted
  rcases List.mem_append.1 hx with hx | hx
  · exact (hsorted.2.2 x hx v List.mem_cons_self).le
  · rw [List.mem_singleton.1 hx]

theorem Inv.lt_of_mem_bottom (h : Inv g keep s frames) (hx : x ∈ bottom) :
    s.number x < s.number v := by
  have hsorted := h.sorted
  rw [hstack, List.pairwise_append, List.pairwise_cons] at hsorted
  exact hsorted.2.1.1 x hx

theorem Inv.mem_bottom (h : Inv g keep s frames) (hx : x ∈ s.stack)
    (hlt : s.number x < s.number v) : x ∈ bottom := by
  refine ((mem_stack_iff hstack).1 hx).resolve_left fun htop => ?_
  have := h.le_of_mem_top hstack htop
  omega

theorem Inv.close_eq (h : Inv g keep s frames) : s.close v = { s with
    onStack := (top ++ [v]).foldl (fun onStack m => onStack.setIfInBounds m false) s.onStack
    stack := bottom
    found := s.found ++ [(List.range s.index.size).filter (top ++ [v]).contains] } := by
  have hsorted := h.sorted
  rw [hstack, List.pairwise_append] at hsorted
  have hnot : v ∉ top := fun hmem =>
    absurd (hsorted.2.2 v hmem v List.mem_cons_self) (Nat.lt_irrefl _)
  rw [Tarjan.close, hstack, popTo_append hnot]

theorem Inv.mem_listed (h : Inv g keep s frames) :
    x ∈ (List.range s.index.size).filter (top ++ [v]).contains ↔ x ∈ top ++ [v] := by
  rw [List.mem_filter, List.mem_range, List.contains_iff_mem, and_iff_right_iff_imp, h.index_size]
  exact fun hx => (h.inside x ((mem_stack_iff hstack).2 (.inl hx))).1

theorem Inv.held_close (h : Inv g keep s frames) : Held (s.close v) x ↔ Held s x := by
  simp only [Held, h.close_eq hstack, mem_stack_iff hstack, List.mem_append (s := s.found),
    List.mem_singleton, or_and_right, exists_or, exists_eq_left, h.mem_listed hstack]
  rw [or_comm, or_assoc, or_comm]

/-- The nodes from `v` on up are its component. -/
theorem Inv.mem_top_iff (h : Inv g keep s ((v, []) :: frames)) (hlow : s.low v = s.number v) :
    x ∈ top ++ [v] ↔ g.Reaches v x ∧ g.Reaches x v := by
  have hv := h.framed v List.mem_cons_self
  constructor
  · intro hx
    have hx' := (mem_stack_iff hstack).2 (.inl hx)
    obtain ⟨u, hu, -, hpath⟩ := h.returns x hx'
    exact ⟨h.links v hv x hx' (h.le_of_mem_top hstack hx),
      hpath.trans (h.links u (h.framed u hu) v hv (number_le_top h.nested hu))⟩
  · rintro ⟨hvx, hxv⟩
    obtain ⟨hx, hle⟩ := h.above_of_reaches hlow hvx hxv
    refine ((mem_stack_iff hstack).1 hx).resolve_right fun hbottom => ?_
    have := h.lt_of_mem_bottom hstack hbottom
    omega

end

/-- A node that has noted nothing lower completes its component. -/
theorem Inv.close (h : Inv g keep s ((v, []) :: frames)) (hlow : s.low v = s.number v) :
    Inv g keep (s.close v) frames := by
  have hv := h.framed v List.mem_cons_self
  obtain ⟨top, bottom, hstack⟩ := List.append_of_mem hv
  have hclose := h.close_eq hstack
  have hbottom : ∀ x ∈ bottom, s.number x < s.number v := fun _ => h.lt_of_mem_bottom hstack
  have hsub : ∀ {x}, x ∈ bottom → x ∈ s.stack := fun hx => (mem_stack_iff hstack).2 (.inr hx)
  -- the nodes the search is still in lie below `v`
  have hunder : ∀ {x}, x ∈ nodes frames → x ∈ s.stack ∧ s.number x < s.number v := fun hx =>
    ⟨h.framed _ (List.mem_cons_of_mem _ hx), (List.pairwise_cons.1 h.nested).1 _ hx⟩
  constructor
  case index_size => simpa [hclose] using h.index_size
  case low_size => simpa [hclose] using h.low_size
  case mark_size => rw [hclose, ← h.mark_size]; exact size_foldl_unmark _ _
  case entered =>
    intro x hx
    rw [h.held_close hstack, ← h.entered x hx, hclose]
    rfl
  case inside => rw [hclose]; exact fun x hx => h.inside x (hsub hx)
  case apart =>
    rw [hclose]
    intro x hx members hmembers hin
    rcases List.mem_append.1 hmembers with hmembers | hmembers
    · exact h.apart x (hsub hx) members hmembers hin
    · rw [List.mem_singleton.1 hmembers, h.mem_listed hstack] at hin
      have := h.le_of_mem_top hstack hin
      have := hbottom x hx
      omega
  case marked =>
    intro x
    rw [hclose, getD_foldl_unmark, h.marked, mem_stack_iff hstack]
    constructor
    · rintro ⟨hx, hx'⟩
      exact hx.resolve_left hx'
    · intro hx
      refine ⟨.inr hx, fun hx' => ?_⟩
      have := h.le_of_mem_top hstack hx'
      have := hbottom x hx
      omega
  case sorted =>
    have hsorted := h.sorted
    rw [hstack, List.pairwise_append, List.pairwise_cons] at hsorted
    rw [hclose]
    exact hsorted.2.1.2
  case framed => rw [hclose]; exact fun x hx => h.mem_bottom hstack (hunder hx).1 (hunder hx).2
  case nested => rw [hclose]; exact (List.pairwise_cons.1 h.nested).2
  case edges => exact fun f hf => h.edges f (List.mem_cons_of_mem _ hf)
  case links => rw [hclose]; exact fun x hx y hy => h.links x (hsub hx) y (hsub hy)
  case returns =>
    rw [hclose]
    intro y hy
    obtain ⟨u, hu, hle, hpath⟩ := h.returns y (hsub hy)
    refine ⟨u, (List.mem_cons.1 hu).resolve_left fun heq => ?_, hle, hpath⟩
    have := hbottom y hy
    subst heq
    exact absurd hle (by simpa using this)
  case followed =>
    intro x hx w hw
    rw [hclose]
    exact (h.followed x ((h.held_close hstack).1 hx) w hw).imp_left pending_tail
  case lowest =>
    rw [hclose]
    intro x hx
    obtain ⟨hle, z, hz, hnumber, hpath⟩ := h.lowest x (List.mem_cons_of_mem _ hx)
    have hlt : s.number z < s.number v := hnumber ▸ Nat.lt_of_le_of_lt hle (hunder hx).2
    exact ⟨hle, z, h.mem_bottom hstack hz hlt, hnumber, hpath⟩
  case bound =>
    rw [hclose]
    intro x hx y hy hle z hz hz' hlt
    refine (h.bound x (List.mem_cons_of_mem _ hx) y (hsub hy) hle z hz (hsub hz') hlt).imp
      pending_tail ?_
    rintro ⟨u, hu, hnumber, hseen⟩
    refine ⟨u, (List.mem_cons.1 hu).resolve_left fun heq => ?_, hnumber, hseen⟩
    have := hbottom z hz'
    subst heq
    omega
  case classes =>
    rw [hclose]
    intro members hmembers
    rcases List.mem_append.1 hmembers with hmembers | hmembers
    · exact h.classes members hmembers
    · refine ⟨v, (h.inside v hv).2.1, fun b => ?_⟩
      rw [List.mem_singleton.1 hmembers, h.mem_listed hstack, h.mem_top_iff hstack hlow]

theorem Inv.leave (h : Inv g keep s ((v, []) :: frames))
    (hparent : ∀ f ∈ frames.head?, s.low f.1 ≤ s.low v) :
    Inv g keep (s.closeIfLowest v) frames := by
  have hle := (h.lowest v List.mem_cons_self).1
  simp only [closeIfLowest, h.indexOf?_eq (h.framed v List.mem_cons_self), Option.some_inj]
  split
  next heq => exact h.close heq.symm
  next hne => exact h.stay (Nat.lt_of_le_of_ne hle (Ne.symm hne)) hparent

theorem Inv.step (h : Inv g keep s frames) (hkeep : ∀ x, ∀ w ∈ g.successors x, keep w) :
    Inv g keep (Tarjan.step g s frames).1 (Tarjan.step g s frames).2 := by
  fun_cases Tarjan.step g s frames with
  | case1 => exact h
  | case2 v w rest frames hw =>
    have hlt := h.lt_size hw
    have hedge := h.edges (v, w :: rest) List.mem_cons_self w List.mem_cons_self
    have hv := h.framed v List.mem_cons_self
    have henter := h.enter hw hlt (hkeep v w hedge) fun x hx => by
      obtain ⟨u, hu, -, hpath⟩ := h.returns x hx
      exact (hpath.trans (h.links u (h.framed u hu) v hv (number_le_top h.nested hu))).snoc
        hedge hlt trivial
    have hnumber : ∀ {x}, (s.enter w).number x = if x = w then s.count else s.number x :=
      number_enter (by rwa [h.index_size])
    have hw' : ((s.enter w).indexOf? w).isSome = true := by
      rw [indexOf?_enter (by rwa [h.index_size]), if_pos rfl]
      rfl
    refine Inv.follow [(w, g.successors w)] henter hw' fun _ hless => ?_
    have := (h.inside v hv).2.2
    rw [hnumber, if_pos rfl, hnumber] at hless
    split at hless <;> omega
  | case3 v w rest frames i hw =>
    have hv : v ∈ nodes ((v, w :: rest) :: frames) := List.mem_cons_self
    split
    next hmark =>
      have hstack := (h.marked w).1 hmark
      have hi : i = s.number w := by rw [number, hw, Option.getD_some]
      have hreach : g.Reaches v w := .snoc (.refl (h.inside v (h.framed v hv)).1 trivial)
        (h.edges (v, w :: rest) List.mem_cons_self w List.mem_cons_self)
          (h.inside w hstack).1 trivial
      refine Inv.follow [] (hi ▸ h.lower hv hstack hreach) (Option.isSome_of_eq_some hw)
        fun _ _ => ?_
      rw [hi, low_lower (h.low_size ▸ (h.inside v (h.framed v hv)).1), if_pos rfl]
      exact Nat.min_le_right _ _
    next hmark =>
      exact Inv.follow [] h (Option.isSome_of_eq_some hw) fun hstack =>
        absurd ((h.marked w).2 hstack) hmark
  | case4 v parent rest frames =>
    have hv := h.framed v List.mem_cons_self
    have hparent : parent ∈ nodes ((v, []) :: (parent, rest) :: frames) := by simp
    have hne : v ≠ parent := fun heq => by
      have := (List.pairwise_cons.1 h.nested).1 parent (by simp)
      exact absurd (heq ▸ this) (Nat.lt_irrefl _)
    obtain ⟨-, z, hz, hnumber, hreach⟩ := h.lowest v List.mem_cons_self
    have hreach' := (h.links parent (h.framed parent hparent) v hv
      (number_le_top h.nested hparent)).trans hreach
    refine (hnumber ▸ h.lower hparent hz hreach').leave fun f hf => ?_
    cases Option.some_inj.1 hf
    have hlow : ∀ {x}, (s.lower parent (s.low v)).low x = _ :=
      low_lower (h.low_size ▸ (h.inside parent (h.framed parent hparent)).1)
    rw [hlow, if_pos rfl, hlow, if_neg hne]
    exact Nat.min_le_right _ _
  | case5 v => exact h.leave (by simp)

/-! ## The whole search -/

/-- Each node still to be entered and each edge still to be followed is a step, and so is each node
to be left. -/
def work (g : Digraph) (s : Tarjan) (frames : Frames) : Nat :=
  totalOf (fun x => if (s.indexOf? x).isNone then (g.successors x).length + 2 else 0)
    (List.range g.size) +
    totalOf (fun f => f.2.length + 1) frames

theorem work_enter (hw : s.indexOf? w = none) (hlt : w < g.size) (hsize : s.index.size = g.size) :
    work g (s.enter w) ((w, g.successors w) :: frames) < work g s frames := by
  have hless := totalOf_add_le_totalOf (n := (g.successors w).length + 2)
    (f := fun x => if ((s.enter w).indexOf? x).isNone then (g.successors x).length + 2 else 0)
    (g := fun x => if (s.indexOf? x).isNone then (g.successors x).length + 2 else 0)
    (fun x _ => by grind [indexOf?_enter]) (List.mem_range.2 hlt)
    (by simp [indexOf?_enter (hsize.symm ▸ hlt), hw])
  rw [work, work, totalOf_cons]
  dsimp only at hless ⊢
  omega

@[simp] theorem indexOf?_closeIfLowest : (s.closeIfLowest v).indexOf? x = s.indexOf? x := by
  rw [closeIfLowest]
  split <;> rfl

theorem Inv.work_step (h : Inv g keep s frames) (hne : frames ≠ []) :
    work g (Tarjan.step g s frames).1 (Tarjan.step g s frames).2 < work g s frames := by
  fun_cases Tarjan.step g s frames with
  | case1 => exact absurd rfl hne
  | case2 v w rest frames hw =>
    refine (work_enter hw (h.lt_size hw) h.index_size).trans_le ?_
    simp only [work, totalOf_cons, List.length_cons]
    omega
  | case3 v w rest frames i hw => split <;> simp [work]
  | case4 v parent rest frames => simp [work]
  | case5 v => simp [work]

theorem Inv.entered_step (h : Inv g keep s frames) (hx : (s.indexOf? x).isSome = true) :
    ((Tarjan.step g s frames).1.indexOf? x).isSome = true := by
  fun_cases Tarjan.step g s frames with
  | case1 => exact hx
  | case2 v w rest frames hw =>
    rw [indexOf?_enter (h.index_size.symm ▸ h.lt_size hw)]
    split
    · rfl
    · exact hx
  | case3 v w rest frames i hw => split <;> exact hx
  | case4 v parent rest frames => simpa using hx
  | case5 v => simpa using hx

theorem Inv.run (hkeep : ∀ x, ∀ w ∈ g.successors x, keep w) (n : Nat) (h : Inv g keep s frames)
    (hn : work g s frames ≤ n) :
    Inv g keep (Tarjan.run g n s frames) [] ∧
      ∀ x, (s.indexOf? x).isSome = true → ((Tarjan.run g n s frames).indexOf? x).isSome = true := by
  fun_induction Tarjan.run g n s frames with
  | case1 n s => exact ⟨h, fun _ => id⟩
  | case2 s frames hne =>
    cases frames with
    | nil => exact absurd rfl hne
    | cons f frames => simp [work] at hn
  | case3 s frames n hne ih =>
    have hless := h.work_step hne
    obtain ⟨hinv, hmono⟩ := ih (h.step hkeep) (by omega)
    exact ⟨hinv, fun x hx => hmono x (h.entered_step hx)⟩

theorem Inv.connect {root : Nat} (hkeep : ∀ x, ∀ w ∈ g.successors x, keep w) (h : Inv g keep s [])
    (hroot : keep root) :
    Inv g keep (g.connect s root) [] ∧ ((g.connect s root).indexOf? root).isSome = true ∧
      ∀ x, (s.indexOf? x).isSome = true → ((g.connect s root).indexOf? x).isSome = true := by
  rw [Digraph.connect]
  split
  next i hentered => exact ⟨h, by rw [hentered]; rfl, fun _ => id⟩
  next hnone =>
    have hlt := h.lt_size hnone
    have hindex : ∀ {x}, (s.enter root).indexOf? x =
        if x = root then some s.count else s.indexOf? x :=
      indexOf?_enter (h.index_size.symm ▸ hlt)
    have henter := h.enter hnone hlt hroot fun x hx => by
      obtain ⟨u, hu, -⟩ := h.returns x hx
      simp at hu
    have hwork : work g (s.enter root) [(root, g.successors root)] ≤
        totalOf (fun node => (g.successors node).length + 2) (List.range g.size) := by
      refine (work_enter hnone hlt h.index_size).le.trans (totalOf_le_totalOf fun x _ => ?_)
      split <;> omega
    obtain ⟨hinv, hmono⟩ := henter.run hkeep _ hwork
    exact ⟨hinv, hmono root (by rw [hindex, if_pos rfl]; rfl), fun x hx =>
      hmono x (by rw [hindex]; split <;> simp [hx])⟩

theorem inv_start (g : Digraph) (keep : Nat → Prop) : Inv g keep (.start g) [] := by
  constructor <;> simp +contextual [start, indexOf?, Held, Array.getD_eq_getD_getElem?,
    Array.getElem?_replicate]
  grind

theorem Inv.foldl (hkeep : ∀ x, ∀ w ∈ g.successors x, keep w) (roots : List Nat)
    (hroots : ∀ r ∈ roots, keep r)
    (h : Inv g keep s []) : Inv g keep (roots.foldl g.connect s) [] ∧
      ∀ x, x ∈ roots ∨ (s.indexOf? x).isSome = true →
        ((roots.foldl g.connect s).indexOf? x).isSome = true := by
  induction roots generalizing s with
  | nil => exact ⟨h, fun x hx => hx.resolve_left List.not_mem_nil⟩
  | cons r roots ih =>
    obtain ⟨hinv, hr, hmono⟩ := h.connect hkeep (hroots r List.mem_cons_self)
    obtain ⟨hfinal, hall⟩ := ih (fun x hx => hroots x (List.mem_cons_of_mem _ hx)) hinv
    refine ⟨hfinal, fun x hx => hall x ?_⟩
    rcases hx with hx | hx
    · exact (List.mem_cons.1 hx).symm.imp_right fun (heq : x = r) => heq ▸ hr
    · exact .inr (hmono x hx)

end BytecodeOpt.Digraph.Tarjan
