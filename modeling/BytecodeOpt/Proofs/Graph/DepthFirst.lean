import BytecodeOpt.Graph.DepthFirst
import BytecodeOpt.Proofs.Table
import Mathlib.Data.Finset.Card

/-!
# What a depth-first search finds

A search enters exactly the nodes that a path of nodes not entered before leads to.  It lists each
of them once, and every node but the first comes after a node that leads to it.
-/

namespace BytecodeOpt.Digraph

variable {new : List Nat} {root : Nat → Prop} {s s' : Search} {start x : Nat}

/-- A path from one node to another, all of whose nodes are allowed. -/
inductive Path (g : Digraph) (allowed : Nat → Prop) : Nat → Nat → Prop where
  | refl {a : Nat} : a < g.size → allowed a → Path g allowed a a
  | snoc {a b c : Nat} : Path g allowed a b → c ∈ g.successors b → c < g.size → allowed c →
      Path g allowed a c

abbrev Reaches (g : Digraph) : Nat → Nat → Prop := Path g fun _ => True

variable {g : Digraph}

theorem lt_size_of_mem_successors {a b : Nat} (h : b ∈ g.successors a) : a < g.size := by
  by_contra hle
  simp [successors, Table.getD_of_le (Nat.le_of_not_lt hle)] at h

namespace Path

variable {allowed : Nat → Prop} {a b c : Nat}

section

variable (h : Path g allowed a b)
include h

theorem lt_size : b < g.size := by
  cases h with
  | refl ha _ => exact ha
  | snoc _ _ hc _ => exact hc

theorem target_allowed : allowed b := by
  cases h with
  | refl _ ha => exact ha
  | snoc _ _ _ hc => exact hc

theorem source_lt_size : a < g.size := by
  induction h with
  | refl ha _ => exact ha
  | snoc _ _ _ _ ih => exact ih

theorem trans (h' : Path g allowed b c) : Path g allowed a c := by
  induction h' with
  | refl _ _ => exact h
  | snoc _ hmem hlt hok ih => exact ih.snoc hmem hlt hok

end

theorem mono_of_lt {allowed' : Nat → Prop} (himp : ∀ x < g.size, allowed x → allowed' x)
    (h : Path g allowed a b) : Path g allowed' a b := by
  induction h with
  | refl ha hok => exact .refl ha (himp _ ha hok)
  | snoc _ hmem hlt hok ih => exact ih.snoc hmem hlt (himp _ hlt hok)

theorem mono {allowed' : Nat → Prop} (himp : ∀ x, allowed x → allowed' x) (h : Path g allowed a b) :
    Path g allowed' a b :=
  h.mono_of_lt fun x _ => himp x

theorem of_successors {g' : Digraph} (hsize : g'.size = g.size)
    (hsucc : ∀ x, ∀ y ∈ g.successors x, y ∈ g'.successors x)
    (h : Path g allowed a b) : Path g' allowed a b := by
  induction h with
  | refl ha hok => exact .refl (hsize ▸ ha) hok
  | snoc _ hmem hlt hok ih => exact ih.snoc (hsucc _ _ hmem) (hsize ▸ hlt) hok

end Path

/-! ## Marks -/

namespace Search

variable {s : Search} {node x : Nat}

theorem hasEntered_enter :
    (s.enter node).hasEntered x = true ↔ x = node ∨ s.hasEntered x = true := by
  simp only [hasEntered, enter, Table.getD_setIfInBounds]
  by_cases hx : x = node
  · grind
  · simp [hx, Ne.symm hx]

@[simp] theorem hasEntered_leave : (s.leave node).hasEntered x = s.hasEntered x := rfl

@[simp] theorem size_enter : (s.enter node).entered.size = s.entered.size := by
  simp [enter]

theorem lt_size_of_not_entered (h : s.hasEntered x = false) : x < s.entered.size := by
  by_contra hle
  simp [hasEntered, Table.getD_of_le (Nat.le_of_not_lt hle)] at h

def remaining (s : Search) : Finset Nat :=
  (Finset.range s.entered.size).filter fun x => s.hasEntered x = false

theorem mem_remaining : x ∈ s.remaining ↔ s.hasEntered x = false := by
  simp only [remaining, Finset.mem_filter, Finset.mem_range, and_iff_right_iff_imp]
  exact lt_size_of_not_entered

theorem card_remaining_le (s : Search) : s.remaining.card ≤ s.entered.size := by
  have := Finset.card_filter_le (Finset.range s.entered.size) fun x => s.hasEntered x = false
  rwa [Finset.card_range] at this

theorem card_remaining_enter (h : s.hasEntered node = false) :
    (s.enter node).remaining.card < s.remaining.card := by
  refine Finset.card_lt_card ⟨?_, ?_⟩
  · intro x hx
    rw [mem_remaining, Bool.eq_false_iff, Ne, hasEntered_enter, not_or] at hx
    exact mem_remaining.2 (by simpa using hx.2)
  · intro hsub
    have := mem_remaining.1 (hsub (mem_remaining.2 h))
    rw [Bool.eq_false_iff] at this
    exact this (hasEntered_enter.2 (.inl rfl))

end Search

/-! ## The search -/

def Led (g : Digraph) (root : Nat → Prop) (nodes : List Nat) : Prop :=
  ∀ before x after, nodes = before ++ x :: after → root x ∨ ∃ y ∈ before, x ∈ g.successors y

theorem Led.append {first second : List Nat} (hfirst : g.Led root first)
    (hsecond : g.Led root second) : g.Led root (first ++ second) := by
  intro before x after heq
  rcases List.append_eq_append_iff.1 heq with ⟨mid, rfl, rfl⟩ | ⟨mid, hfirst', hmid⟩
  · rcases hsecond mid x after rfl with hroot | ⟨y, hy, hedge⟩
    · exact .inl hroot
    · exact .inr ⟨y, List.mem_append_right _ hy, hedge⟩
  · cases mid with
    | nil =>
      rcases hsecond [] x after (by simpa using hmid.symm) with hroot | ⟨y, hy, -⟩
      · exact .inl hroot
      · simp at hy
    | cons z rest =>
      obtain ⟨rfl, rfl⟩ : x = z ∧ after = rest ++ second := by simpa using hmid
      exact hfirst before x rest hfirst'

theorem Led.mono {root root' : Nat → Prop} {nodes : List Nat} (h : g.Led root nodes)
    (himp : ∀ x ∈ nodes, root x → root' x) : g.Led root' nodes := by
  intro before x after heq
  rcases h before x after heq with hroot | hpred
  · exact .inl (himp x (by simp [heq]) hroot)
  · exact .inr hpred

structure Grown (g : Digraph) (root : Nat → Prop) (s s' : Search) (new : List Nat) : Prop where
  size : s'.entered.size = s.entered.size
  order : s'.order = new ++ s.order
  entered : ∀ x, s'.hasEntered x = true ↔ s.hasEntered x = true ∨ x ∈ new
  fresh : ∀ x ∈ new, s.hasEntered x = false
  nodup : new.Nodup
  closed : ∀ x ∈ new, ∀ y ∈ g.successors x, s'.hasEntered y = true
  led : g.Led root new

theorem Grown.refl (s : Search) : g.Grown root s s [] := by
  constructor <;> simp [Led]

theorem Grown.trans {s s' s'' : Search} {first second : List Nat} (h : g.Grown root s s' first)
    (h' : g.Grown root s' s'' second) : g.Grown root s s'' (second ++ first) := by
  constructor
  case size => rw [h'.size, h.size]
  case order => rw [h'.order, h.order, List.append_assoc]
  case entered =>
    intro x
    rw [h'.entered, h.entered, List.mem_append, or_assoc, or_comm (a := x ∈ first)]
  case fresh =>
    intro x hx
    rcases List.mem_append.1 hx with hx | hx
    · have := h'.fresh x hx
      rw [Bool.eq_false_iff] at this ⊢
      exact fun hc => this ((h.entered x).2 (.inl hc))
    · exact h.fresh x hx
  case nodup =>
    refine List.nodup_append.2 ⟨h'.nodup, h.nodup, ?_⟩
    rintro x hx y hy rfl
    have := h'.fresh x hx
    rw [Bool.eq_false_iff] at this
    exact this ((h.entered x).2 (.inr hy))
  case closed =>
    intro x hx y hy
    rcases List.mem_append.1 hx with hx | hx
    · exact h'.closed x hx y hy
    · exact (h'.entered y).2 (.inl (h.closed x hx y hy))
  case led => exact h'.led.append h.led

theorem Grown.mono {root root' : Nat → Prop} (h : g.Grown root s s' new)
    (himp : ∀ x, root x → root' x) : g.Grown root' s s' new :=
  { h with led := h.led.mono fun x _ => himp x }

theorem Grown.card_remaining_le (h : g.Grown root s s' new) :
    s'.remaining.card ≤ s.remaining.card := by
  refine Finset.card_le_card fun x hx => ?_
  rw [Search.mem_remaining, Bool.eq_false_iff] at hx ⊢
  exact fun hc => hx ((h.entered x).2 (.inl hc))

theorem Grown.leave {node : Nat} (hnode : s.hasEntered node = false)
    (h : g.Grown (· ∈ g.successors node) (s.enter node) s' new)
    (hclosed : ∀ y ∈ g.successors node, s'.hasEntered y = true) :
    g.Grown (· = node) s (s'.leave node) (node :: new) := by
  have hnot : node ∉ new := by
    intro hc
    have := h.fresh node hc
    rw [Bool.eq_false_iff] at this
    exact this (Search.hasEntered_enter.2 (.inl rfl))
  constructor
  case size => simpa [Search.leave] using h.size
  case order => simp [Search.leave, h.order, Search.enter]
  case entered =>
    intro x
    rw [Search.hasEntered_leave, h.entered, Search.hasEntered_enter, List.mem_cons]
    tauto
  case fresh =>
    intro x hx
    rcases List.mem_cons.1 hx with rfl | hx
    · exact hnode
    · have := h.fresh x hx
      rw [Bool.eq_false_iff, Ne, Search.hasEntered_enter, not_or] at this
      simpa using this.2
  case nodup => exact List.nodup_cons.2 ⟨hnot, h.nodup⟩
  case closed =>
    intro x hx y hy
    rcases List.mem_cons.1 hx with rfl | hx
    · exact hclosed y hy
    · exact h.closed x hx y hy
  case led =>
    intro before x after heq
    cases before with
    | nil => exact .inl (by simpa using (List.cons.inj heq).1.symm)
    | cons z rest =>
      obtain ⟨rfl, hrest⟩ := List.cons.inj heq
      rcases h.led rest x after hrest with hroot | ⟨y, hy, hedge⟩
      · exact .inr ⟨node, by simp, hroot⟩
      · exact .inr ⟨y, by simp [hy], hedge⟩

theorem Grown.exists_path (h : g.Grown root s s' new) (hs : s.entered.size = g.size) {x : Nat}
    (hx : x ∈ new) :
    ∃ r, root r ∧ Path g (· ∈ new) r x := by
  have hlt : ∀ y ∈ new, y < g.size := fun y hy =>
    hs ▸ Search.lt_size_of_not_entered (h.fresh y hy)
  -- by the place in the list: the node that leads to this one comes earlier
  obtain ⟨before, after, heq⟩ := List.append_of_mem hx
  induction hlen : before.length using Nat.strong_induction_on generalizing x before after with
  | _ n ih =>
    rcases h.led before x after heq with hroot | ⟨y, hy, hedge⟩
    · exact ⟨x, hroot, .refl (hlt _ hx) hx⟩
    · obtain ⟨before', after', hbefore⟩ := List.append_of_mem hy
      have hy' : y ∈ new := by simp [heq, hy]
      obtain ⟨r, hr, hpath⟩ := ih before'.length (by simp [← hlen, hbefore]) hy' before'
        (after' ++ x :: after)
        (by simp [heq, hbefore]) rfl
      exact ⟨r, hr, hpath.snoc hedge (hlt _ hx) hx⟩

theorem exists_grown_foldl {depth : Nat}
    (hvisit : ∀ s : Search, s.remaining.card ≤ depth → ∀ node, ∃ new,
      g.Grown (· = node) s (g.visit depth s node) new ∧
        (g.visit depth s node).hasEntered node = true)
    (nodes : List Nat) (s : Search) (hs : s.remaining.card ≤ depth) :
    ∃ new, g.Grown (· ∈ nodes) s (nodes.foldl (g.visit depth) s) new ∧
      ∀ node ∈ nodes, (nodes.foldl (g.visit depth) s).hasEntered node = true := by
  induction nodes generalizing s with
  | nil => exact ⟨[], Grown.refl s, by simp⟩
  | cons node rest ih =>
    obtain ⟨first, hfirst, hnode⟩ := hvisit s hs node
    obtain ⟨second, hsecond, hrest⟩ :=
      ih (g.visit depth s node) (Nat.le_trans hfirst.card_remaining_le hs)
    refine ⟨second ++ first, ?_, ?_⟩
    · exact (hfirst.mono (by simp_all)).trans (hsecond.mono (by simp_all))
    · intro x hx
      rcases List.mem_cons.1 hx with rfl | hx
      · exact (hsecond.entered x).2 (.inl hnode)
      · exact hrest x hx

/-- With as much depth as there are nodes left, a search leaves nothing out. -/
theorem exists_grown_visit (depth : Nat) (s : Search) (hs : s.remaining.card ≤ depth) (node : Nat) :
    ∃ new, g.Grown (· = node) s (g.visit depth s node) new ∧
      (g.visit depth s node).hasEntered node = true := by
  induction depth generalizing s node with
  | zero =>
    refine ⟨[], Grown.refl s, ?_⟩
    by_contra hnot
    have hmem : node ∈ s.remaining := Search.mem_remaining.2 (by simpa [visit] using hnot)
    have := Finset.card_pos.2 ⟨node, hmem⟩
    omega
  | succ depth ih =>
    unfold visit
    split
    · rename_i hentered
      exact ⟨[], Grown.refl s, hentered⟩
    · rename_i hentered
      have hnode : s.hasEntered node = false := by simpa using hentered
      have hcard := Search.card_remaining_enter hnode
      obtain ⟨new, hnew, hclosed⟩ := exists_grown_foldl ih (g.successors node)
        (s.enter node) (by omega)
      refine ⟨node :: new, hnew.leave hnode hclosed, ?_⟩
      rw [Search.hasEntered_leave, hnew.entered, Search.hasEntered_enter]
      exact .inl (.inl rfl)

theorem exists_grown_explore (s : Search) (hs : s.entered.size = g.size) (node : Nat) :
    ∃ new, g.Grown (· = node) s (g.explore s node) new ∧
      (g.explore s node).hasEntered node = true :=
  exists_grown_visit g.size s (hs ▸ s.card_remaining_le) node

/-! ## Paths -/

/-- A search enters what a path of nodes not entered before leads to. -/
theorem Grown.mem_iff (h : g.Grown root s s' new) (hs : s.entered.size = g.size)
    (hroot : ∀ r, root r → s'.hasEntered r = true) :
    x ∈ new ↔ ∃ r, root r ∧ Path g (fun y => s.hasEntered y = false) r x := by
  constructor
  · intro hx
    obtain ⟨r, hr, hpath⟩ := h.exists_path hs hx
    exact ⟨r, hr, hpath.mono h.fresh⟩
  · rintro ⟨r, hr, hpath⟩
    have hnew : ∀ {y}, s'.hasEntered y = true → s.hasEntered y = false → y ∈ new := fun hy hfresh =>
      ((h.entered _).1 hy).resolve_left (by simp [hfresh])
    induction hpath with
    | refl _ hfresh => exact hnew (hroot _ hr) hfresh
    | snoc _ hmem _ hfresh ih => exact hnew (h.closed _ ih _ hmem) hfresh

theorem not_entered_start {x : Nat} : (Search.start g).hasEntered x = false ↔ x < g.size := by
  simp only [Search.hasEntered, Search.start, Table.getD_replicate]
  split <;> simp_all

theorem path_start {a : Nat} :
    Path g (fun y => (Search.start g).hasEntered y = false) a x ↔ g.Reaches a x :=
  ⟨.mono fun _ _ => trivial, .mono_of_lt fun _ hlt _ => not_entered_start.2 hlt⟩

theorem size_start : (Search.start g).entered.size = g.size := by simp [Search.start]

theorem exists_grown_start (g : Digraph) (start : Nat) :
    g.Grown (· = start) (Search.start g) (g.explore (Search.start g) start)
      (g.reversePostorder start) ∧
      (g.explore (Search.start g) start).hasEntered start = true := by
  obtain ⟨new, hnew, hstart⟩ := exists_grown_explore (Search.start g) size_start start
  have : g.reversePostorder start = new := hnew.order.trans (List.append_nil new)
  exact ⟨this ▸ hnew, hstart⟩

theorem nodup_reversePostorder (g : Digraph) (start : Nat) : (g.reversePostorder start).Nodup :=
  (exists_grown_start g start).1.nodup

theorem mem_reversePostorder : x ∈ g.reversePostorder start ↔ g.Reaches start x := by
  obtain ⟨h, hstart⟩ := exists_grown_start g start
  simp [h.mem_iff size_start (by rintro _ rfl; exact hstart), path_start]

theorem led_reversePostorder (g : Digraph) (start : Nat) :
    g.Led (· = start) (g.reversePostorder start) :=
  (exists_grown_start g start).1.led

theorem lt_size_of_mem_reversePostorder (h : x ∈ g.reversePostorder start) : x < g.size :=
  (mem_reversePostorder.1 h).lt_size

theorem size_reached (g : Digraph) (start : Nat) : (g.reached start).size = g.size := by
  exact (exists_grown_start g start).1.size.trans size_start

/-- A search from several nodes enters what can be reached from one of them. -/
theorem getD_entered_foldl (starts : List Nat) :
    (starts.foldl g.explore (Search.start g)).entered.getD x false = true ↔
      ∃ a ∈ starts, g.Reaches a x := by
  obtain ⟨new, hnew, hall⟩ :=
    exists_grown_foldl (g := g) (fun s hs node => exists_grown_visit g.size s hs node) starts
    (Search.start g) (Nat.le_trans (Search.card_remaining_le _) size_start.le)
  have hmem := hnew.mem_iff (x := x) size_start hall
  simp only [path_start] at hmem
  rw [show g.explore = g.visit g.size from rfl, ← hmem]
  by_cases hlt : x < g.size
  · have hentered := hnew.entered x
    rw [not_entered_start.2 hlt, Search.hasEntered,
      Table.getD_of_lt (by rwa [hnew.size, size_start])] at hentered
    rw [Table.getD_of_lt (by rwa [hnew.size, size_start])]
    simpa using hentered
  · rw [Table.getD_of_le (by rw [hnew.size, size_start]; omega)]
    simp only [Bool.false_eq_true, false_iff]
    intro hx
    obtain ⟨a, -, hpath⟩ := hmem.1 hx
    exact hlt hpath.lt_size

theorem getD_reached : (g.reached start).getD x false = true ↔ g.Reaches start x := by
  simpa [reached] using getD_entered_foldl (g := g) (x := x) [start]

end BytecodeOpt.Digraph
