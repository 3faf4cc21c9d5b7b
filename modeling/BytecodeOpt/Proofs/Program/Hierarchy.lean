import BytecodeOpt.Proofs.Program.Methods
import Mathlib.Data.List.Perm.Subperm
import Std.Data.String.ToNat

/-!
# The methods a call may reach

The search below a type lists every type of the program from which superclasses and interfaces lead
to it.  A call that can run a single method has no other possible target: what overrides the method
at or below the holder of the reference overrides the definition that the holder inherits.  The name
of a new class is the first candidate that is free.
-/

namespace BytecodeOpt.Program

variable {p : Program} {id x : MethodId} {t u root : TypeName} {m : Method} {kind : InvokeKind}

/-! ## Links between types -/

def Link (p : Program) (t u : TypeName) : Prop :=
  ∃ c ∈ p.classes, isDirectSubtype u c = true ∧ c.type = t

def Below (p : Program) : TypeName → TypeName → Prop := Relation.ReflTransGen p.Link

def superclass? (p : Program) (t : TypeName) : Option TypeName :=
  (p.class? t).bind Class.superclass

def Extends (p : Program) : TypeName → TypeName → Prop :=
  Relation.ReflTransGen fun t u => p.superclass? t = some u

theorem Link.of_superclass? (h : p.superclass? t = some u) : p.Link t u := by
  obtain ⟨c, hc, hsuper⟩ := Option.bind_eq_some_iff.1 h
  refine ⟨c, List.mem_of_find?_eq_some hc, ?_, by simpa using List.find?_some hc⟩
  simp [isDirectSubtype, hsuper]

theorem Extends.below (h : p.Extends t u) : p.Below t u :=
  Relation.ReflTransGen.mono (fun _ _ => Link.of_superclass?) t u h

/-! ## The types below a type -/

def fresh (p : Program) (root type : TypeName) (found : List TypeName) : List TypeName :=
  ((p.classes.filter (isDirectSubtype type)).map Class.type).filter
    fun t => !found.contains t && t != root

theorem mem_fresh {type : TypeName} {found : List TypeName} :
    t ∈ p.fresh root type found ↔ p.Link t type ∧ t ∉ found ∧ t ≠ root := by
  simp [fresh, Link, and_assoc]

def unfound (p : Program) (found : List TypeName) : Nat :=
  p.classes.countP fun c => !found.contains c.type

theorem length_fresh_add_unfound_le (p : Program) (root type : TypeName) (found : List TypeName) :
    (p.fresh root type found).length + p.unfound (found ++ p.fresh root type found)
      ≤ p.unfound found := by
  have hsplit := List.countP_eq_countP_filter_add p.classes (fun c => !found.contains c.type)
    fun c => isDirectSubtype type c && c.type != root
  have hfresh : (p.fresh root type found).length = (p.classes.filter fun c =>
      isDirectSubtype type c && c.type != root).countP fun c => !found.contains c.type := by
    rw [fresh, ← List.countP_eq_length_filter, List.countP_map, List.countP_filter,
      List.countP_filter]
    refine List.countP_congr fun c _ => ?_
    simp only [Function.comp_apply, Bool.and_eq_true]
    tauto
  have hrest : p.unfound (found ++ p.fresh root type found) ≤ (p.classes.filter fun c =>
      !(isDirectSubtype type c && c.type != root)).countP fun c => !found.contains c.type := by
    rw [unfound, List.countP_filter]
    refine List.countP_mono_left fun c hc hnew => ?_
    have hold : c.type ∉ found ∧ c.type ∉ p.fresh root type found := by simpa using hnew
    have hlink : isDirectSubtype type c = false ∨ c.type = root := by
      by_contra hnot
      rw [not_or, Bool.not_eq_false] at hnot
      exact hold.2 (mem_fresh.2 ⟨⟨c, hc, hnot.1, rfl⟩, hold.1, hnot.2⟩)
    simpa [hold.1] using hlink
  unfold unfound at *
  omega

structure Searching (p : Program) (root : TypeName) (queue found : List TypeName) : Prop where
  queue_below : ∀ t ∈ queue, p.Below t root
  found_below : ∀ t ∈ found, t ≠ root ∧ p.Below t root
  closed : ∀ u, u = root ∨ u ∈ found → u ∈ queue ∨ ∀ t, p.Link t u → t = root ∨ t ∈ found

theorem Searching.step {type : TypeName} {queue found : List TypeName}
    (h : p.Searching root (type :: queue) found) :
    p.Searching root (queue ++ p.fresh root type found) (found ++ p.fresh root type found) where
  queue_below := by
    intro t ht
    obtain ht | ht := List.mem_append.1 ht
    · exact h.queue_below t (List.mem_cons_of_mem _ ht)
    · exact (h.queue_below type List.mem_cons_self).head (mem_fresh.1 ht).1
  found_below := by
    intro t ht
    obtain ht | ht := List.mem_append.1 ht
    · exact h.found_below t ht
    · obtain ⟨hlink, -, hne⟩ := mem_fresh.1 ht
      exact ⟨hne, (h.queue_below type List.mem_cons_self).head hlink⟩
  closed := by
    intro u hu
    by_cases hnew : u ∈ p.fresh root type found
    · exact .inl (List.mem_append_right _ hnew)
    have hold : u = root ∨ u ∈ found := hu.imp_right fun hmem =>
      (List.mem_append.1 hmem).resolve_right hnew
    obtain hqueue | hdone := h.closed u hold
    · obtain rfl | hqueue := List.mem_cons.1 hqueue
      · -- The type just taken: what is below it was found before or is found now.
        refine .inr fun t hlink => ?_
        by_cases ht : t = root ∨ t ∈ found
        · exact ht.imp_right (List.mem_append_left _)
        · rw [not_or] at ht
          exact .inr (List.mem_append_right _ (mem_fresh.2 ⟨hlink, ht.2, ht.1⟩))
      · exact .inl (List.mem_append_left _ hqueue)
    · exact .inr fun t hlink => (hdone t hlink).imp_right (List.mem_append_left _)

theorem Searching.run (steps : Nat) (queue found : List TypeName)
    (h : p.Searching root queue found) (hsteps : queue.length + p.unfound found ≤ steps) :
    p.Searching root [] (p.subtypesFrom root steps queue found) := by
  induction steps generalizing queue found with
  | zero =>
    obtain rfl : queue = [] := List.eq_nil_of_length_eq_zero (by omega)
    exact h
  | succ steps ih =>
    cases queue with
    | nil => exact h
    | cons type queue =>
      have hle := length_fresh_add_unfound_le p root type found
      have hroom : (queue ++ p.fresh root type found).length
          + p.unfound (found ++ p.fresh root type found) ≤ steps := by
        simp only [List.length_cons, List.length_append] at hsteps ⊢
        omega
      exact ih _ _ h.step hroom

theorem searching_subtypes (p : Program) (root : TypeName) :
    p.Searching root [] (p.subtypes root) := by
  refine Searching.run _ _ _ ⟨?_, ?_, ?_⟩ ?_
  · intro t ht
    rw [List.mem_singleton.1 ht]
    exact .refl
  · simp
  · simp
  · have hle : p.unfound [] ≤ p.classes.length := List.countP_le_length
    simp only [List.length_singleton]
    omega

theorem nodup_subtypesFrom (h : (p.classes.map Class.type).Nodup) {steps : Nat}
    {queue found : List TypeName}
    (hfound : found.Nodup) : (p.subtypesFrom root steps queue found).Nodup := by
  fun_induction subtypesFrom with
  | case1 | case2 => exact hfound
  | case3 steps type queue found below ih =>
    have hbelow : below.Nodup := (h.sublist (List.filter_sublist.map _)).filter _
    exact ih (hfound.append hbelow fun t ht ht' => (mem_fresh.1 ht').2.1 ht)

/-- The search finds exactly the other types from which links lead to the given one. -/
theorem mem_subtypes_iff : t ∈ p.subtypes root ↔ t ≠ root ∧ p.Below t root := by
  have hsearch := searching_subtypes p root
  have hfound (hbelow : p.Below t root) : t = root ∨ t ∈ p.subtypes root := by
    induction hbelow using Relation.ReflTransGen.head_induction_on with
    | refl => exact .inl rfl
    | head hlink _ ih => exact ((hsearch.closed _ ih).resolve_left List.not_mem_nil) _ hlink
  exact ⟨hsearch.found_below t, fun ⟨hne, hbelow⟩ => (hfound hbelow).resolve_left hne⟩

/-! ## Methods on the superclass chain -/

theorem lookupFrom_succ (p : Program) (id : MethodId) (steps : Nat) (t : TypeName) :
    p.lookupFrom id (steps + 1) t =
      (p.method? (id.withHolder t)).or ((p.superclass? t).bind (p.lookupFrom id steps)) := by
  rw [lookupFrom, method?, superclass?, MethodId.withHolder]
  cases p.class? t with
  | none => rfl
  | some c => grind

theorem defined_of_lookupFrom {steps : Nat} (h : p.lookupFrom id steps t = some m) :
    p.method? (id.withHolder m.id.holder) = some m ∧ p.Extends t m.id.holder := by
  induction steps generalizing t with
  | zero => simp [lookupFrom] at h
  | succ steps ih =>
    rw [lookupFrom_succ] at h
    obtain hm | ⟨-, hsuper⟩ := Option.or_eq_some_iff.1 h
    · have hholder : m.id.holder = t := by rw [id_of_method? hm]; rfl
      exact ⟨hholder ▸ hm, hholder ▸ .refl⟩
    · obtain ⟨u, hu, hrest⟩ := Option.bind_eq_some_iff.1 hsuper
      exact ⟨(ih hrest).1, (ih hrest).2.head hu⟩

theorem mem_overridingMethods :
    x ∈ p.overridingMethods id ↔ ∃ m, m.id = x ∧ m.isVirtual = true ∧
      p.method? (id.withHolder m.id.holder) = some m ∧
      m.id.holder ≠ id.holder ∧ p.Below m.id.holder id.holder := by
  simp only [overridingMethods, List.mem_filterMap, mem_subtypes_iff, Option.map_eq_some_iff,
    Option.filter_eq_some_iff]
  constructor
  · rintro ⟨t, ⟨hne, hbelow⟩, m, ⟨hm, hvirtual⟩, rfl⟩
    have hholder : m.id.holder = t := by rw [id_of_method? hm]; rfl
    subst hholder
    exact ⟨m, rfl, hvirtual, hm, hne, hbelow⟩
  · grind

/-! ## One target -/

theorem sortedDistinct_eq_singleton {ids : List MethodId} (hne : ids ≠ []) (h : ∀ y ∈ ids, y = x) :
    sortedDistinct ids = [x] := by
  have hloop (n : Nat) : List.eraseRepsBy.loop (· == ·) x (List.replicate n x) [] = [x] := by
    induction n with
    | zero => rfl
    | succ n ih => simpa [List.replicate_succ, List.eraseRepsBy.loop] using ih
  have hsorted : ids.mergeSort (fun a b => (compare a b).isLE) = List.replicate ids.length x :=
    List.eq_replicate_iff.2 ⟨List.length_mergeSort _, fun y hy => h y (List.mem_mergeSort.1 hy)⟩
  obtain ⟨n, hn⟩ := Nat.exists_eq_add_one.2 (List.length_pos_of_ne_nil hne)
  rw [sortedDistinct, hsorted, hn, List.replicate_succ]
  exact hloop n

/-- Of the methods below the holder of a reference, each is the one the reference finds or overrides
it. -/
theorem eq_or_overrides (hfound : p.lookup? id = some m) (h : x ∈ p.overridingMethods id) :
    x = m.id ∨ x ∈ p.overridingMethods m.id := by
  obtain ⟨hdefined, hchain⟩ := defined_of_lookupFrom hfound
  have hid : m.id = id.withHolder m.id.holder := id_of_method? hdefined
  obtain ⟨other, rfl, hvirtual, hother, -, hbelow⟩ := mem_overridingMethods.1 h
  by_cases hholder : other.id.holder = m.id.holder
  · grind
  · refine .inr (mem_overridingMethods.2 ⟨other, rfl, hvirtual, ?_, hholder,
      hbelow.trans hchain.below⟩)
    rw [hid]
    exact hother

theorem exists_of_singleTarget? (h : p.singleTarget? kind id = some x) :
    ∃ m, p.lookup? id = some m ∧ m.id = x ∧
      (kind.isDispatched = true → p.overridingMethods x = []) := by
  cases hfound : p.lookup? id with
  | none => simp [singleTarget?, hfound] at h
  | some m =>
    simp only [singleTarget?, hfound] at h
    split at h
    · simp at h
    · grind

theorem possibleTargets_of_singleTarget? (h : p.singleTarget? kind id = some x) :
    p.possibleTargets kind id = [x] := by
  obtain ⟨m, hfound, rfl, hnone⟩ := exists_of_singleTarget? h
  simp only [possibleTargets, hfound, Option.map_some, Option.toList_some]
  refine sortedDistinct_eq_singleton (by simp) fun y hy => ?_
  rcases List.mem_append.1 hy with hy | hy
  · exact List.mem_singleton.1 hy
  · cases hkind : kind.isDispatched with
    | false => simp [hkind] at hy
    | true =>
      rw [hkind, if_pos rfl] at hy
      exact (eq_or_overrides hfound hy).resolve_right (by simp [hnone hkind])

/-! ## New names -/

theorem candidateName_inj {base : String} {m n : Nat}
    (h : candidateName base m = candidateName base n) : m = n := by
  unfold candidateName at h
  split at h <;> split at h <;> simp only [TypeName.mk.injEq] at h
  · omega
  · exact absurd h.symm (by simp)
  · exact absurd h (by simp)
  · exact Nat.repr_inj.1 ((String.append_right_inj base).1 h)

theorem exists_freshTypeName (p : Program) (base : String) :
    ∃ n, p.freshTypeName base = candidateName base n ∧
      p.isProgramType (p.freshTypeName base) = false ∧
      ∀ m < n, p.isProgramType (candidateName base m) = true := by
  rw [freshTypeName, List.find?_map]
  cases hfind : (List.range (p.classes.length + 1)).find?
    ((fun name => !p.isProgramType name) ∘ candidateName base) with
  | some n =>
    obtain ⟨hfree, -, htaken⟩ := List.find?_range_eq_some.1 hfind
    exact ⟨n, rfl, by simpa using hfree, fun m hm => by simpa using htaken m hm⟩
  | none =>
    -- more candidates than classes, so they are not all taken
    have hnodup : ((List.range (p.classes.length + 1)).map (candidateName base)).Nodup :=
      List.Nodup.map (fun _ _ => candidateName_inj) List.nodup_range
    have htaken : (List.range (p.classes.length + 1)).map (candidateName base) ⊆ p.classes.map
        Class.type := by
      intro name hname
      obtain ⟨n, hn, rfl⟩ := List.mem_map.1 hname
      simpa [isProgramType] using List.find?_eq_none.1 hfind n hn
    have hle := (hnodup.subperm htaken).length_le
    simp only [List.length_map, List.length_range] at hle
    omega

theorem not_isProgramType_freshTypeName (p : Program) (base : String) :
    p.isProgramType (p.freshTypeName base) = false :=
  let ⟨_, _, hfree, _⟩ := p.exists_freshTypeName base
  hfree

/-- The search lists the types below a type, once each where no two classes have one name.  A new
name is the first candidate that no class has. -/
theorem subtypes_and_names_exact (p : Program) (root : TypeName) (base : String) :
    ((p.classes.map Class.type).Nodup → (p.subtypes root).Nodup) ∧
      (∀ t, t ∈ p.subtypes root ↔ t ≠ root ∧ p.Below t root) ∧
      ∃ n, p.freshTypeName base = ⟨if n = 0 then base else base ++ toString n⟩ ∧
        p.isProgramType (p.freshTypeName base) = false ∧
        ∀ m < n, p.isProgramType ⟨if m = 0 then base else base ++ toString m⟩ = true := by
  refine ⟨fun h => nodup_subtypesFrom h .nil, fun t => mem_subtypes_iff, ?_⟩
  simpa only [candidateName, ← apply_ite TypeName.mk] using p.exists_freshTypeName base

/-- Two interfaces that extend each other. -/
def crossedInterfaces : Program where
  classes := [{ type := ⟨"I"⟩, flags := {}, interfaces := [⟨"J"⟩] },
    { type := ⟨"J"⟩, flags := {}, interfaces := [⟨"I"⟩] }]

theorem subtypes_and_names_exact_crossed : (crossedInterfaces.classes.map Class.type).Nodup ∧
    crossedInterfaces.subtypes ⟨"I"⟩ = [⟨"J"⟩] ∧ (crossedInterfaces.subtypes ⟨"I"⟩).Nodup := by
  have hnodup : (crossedInterfaces.classes.map Class.type).Nodup := by decide
  exact ⟨hnodup, by decide, (crossedInterfaces.subtypes_and_names_exact ⟨"I"⟩ "I").1 hnodup⟩

end BytecodeOpt.Program
