import BytecodeOpt.Proofs.Fallible
import BytecodeOpt.Proofs.Program.Methods

/-!
# How often methods were processed

What classes come to when some of their methods are processed again.  Where the names of methods are
distinct, a change to the method with a certain name counts for that name and for no other.
-/

namespace BytecodeOpt

namespace Class

variable {α : Type} {q : α → Bool} {f : α → α} {c : Class} {cs : List Class} {ms : List Method}
  {id : MethodId} {change : Method → Method} {added : MethodId → Nat} {cs' : List Class}

/-! ## Changes in a part of a list -/

theorem modifyFirst_append_of_none {as : List α} (bs : List α) (h : ∀ a ∈ as, q a = false) :
    modifyFirst q f (as ++ bs) = as ++ modifyFirst q f bs := by
  induction as with
  | nil => rfl
  | cons a rest ih =>
    obtain ⟨ha, hrest⟩ := List.forall_mem_cons.1 h
    rw [List.cons_append, modifyFirst, if_neg (Bool.eq_false_iff.1 ha), ih hrest, List.cons_append]

theorem modifyFirst_append_of_exists {as : List α} (bs : List α) (h : ∃ a ∈ as, q a = true) :
    modifyFirst q f (as ++ bs) = modifyFirst q f as ++ bs := by
  induction as with
  | nil => simp at h
  | cons a rest ih =>
    rw [List.cons_append, modifyFirst, modifyFirst]
    split
    · rfl
    · rename_i ha
      rw [List.exists_mem_cons_iff] at h
      rw [ih (h.resolve_left ha), List.cons_append]

/-! ## Counting -/

def countedMethod (added : MethodId → Nat) (m : Method) :
    MethodId × Nat := (m.id, m.processCount + added m.id)

def counted (added : MethodId → Nat) (c : Class) : TypeName × ClassFlags × List (MethodId × Nat) :=
  (c.type, c.flags, c.methods.map (countedMethod added))

def Counted (added : MethodId → Nat) (cs cs' : List Class) : Prop :=
  cs'.map (counted fun _ => 0) = cs.map (counted added)

theorem Counted.trans {added added' : MethodId → Nat} {cs cs' cs'' : List Class}
    (h : Counted added cs cs')
    (h' : Counted added' cs' cs'') : Counted (fun id => added id + added' id) cs cs'' := by
  -- What was counted before tells what is counted with more added.
  let more (r : TypeName × ClassFlags × List (MethodId × Nat)) :
      TypeName × ClassFlags × List (MethodId × Nat) :=
    (r.1, r.2.1, r.2.2.map fun e => (e.1, e.2 + added' e.1))
  have hmore (added : MethodId → Nat) (c : Class) :
      more (counted added c) = counted (fun id => added id + added' id) c := by
    have hmethod (m : Method) :
        ((countedMethod added m).1, (countedMethod added m).2 + added' (countedMethod added m).1) =
          countedMethod (fun id => added id + added' id) m := by
      simp only [countedMethod, Nat.add_assoc]
    simp only [more, counted, List.map_map, Function.comp_def, hmethod]
  calc cs''.map (counted fun _ => 0) = cs'.map (counted added') := h'
    _ = (cs'.map (counted fun _ => 0)).map more := by
      rw [List.map_map]
      exact List.map_congr_left fun c _ => by simp only [Function.comp_def, hmore, Nat.zero_add]
    _ = (cs.map (counted added)).map more := by rw [h]
    _ = cs.map (counted fun id => added id + added' id) := by
      rw [List.map_map]
      exact List.map_congr_left fun c _ => hmore added c

theorem Counted.refl (cs : List Class) : Counted (fun _ => 0) cs cs := rfl

theorem Counted.types (h : Counted added cs cs') : cs'.map type = cs.map type := by
  have := congrArg (List.map Prod.fst) h
  simpa only [List.map_map, Function.comp_def, counted] using this

theorem Counted.exists_type_iff (h : Counted added cs cs') {t : TypeName} :
    (∃ c ∈ cs', c.type = t) ↔ ∃ c ∈ cs, c.type = t := by
  simp only [← List.mem_map, h.types]

theorem Counted.forall₂ (h : Counted added cs cs') :
    List.Forall₂ (fun c c' => counted (fun _ => 0) c' = counted added c) cs cs' := by
  have heq : List.Forall₂ Eq (cs.map (counted added)) (cs'.map (counted fun _ => 0)) := by
    rw [h]
    exact List.forall₂_refl _
  exact (List.forall₂_map_right_iff.1 (List.forall₂_map_left_iff.1 heq)).imp fun _ _ h => h.symm

theorem exists_of_counted {c c' : Class} (h : counted (fun _ => 0) c' = counted added c)
    {m' : Method} (hm' : m' ∈ c'.methods) :
    ∃ m ∈ c.methods, m'.id = m.id ∧ m'.processCount = m.processCount + added m.id := by
  have hmethods : c'.methods.map (countedMethod fun _ => 0) = c.methods.map (countedMethod added) :=
    congrArg (fun r => r.2.2) h
  have hmem := List.mem_map_of_mem hm' (f := countedMethod fun _ => 0)
  rw [hmethods] at hmem
  obtain ⟨m, hm, heq⟩ := List.mem_map.1 hmem
  obtain ⟨hid, hcount⟩ := Prod.mk.inj heq
  exact ⟨m, hm, hid.symm, hcount.symm⟩

theorem Counted.exists_method (h : Counted added cs cs') {c' : Class} (hc' : c' ∈ cs') {m' : Method}
    (hm' : m' ∈ c'.methods) :
    ∃ c ∈ cs, ∃ m ∈ c.methods, m'.id = m.id ∧ m'.processCount = m.processCount + added m.id := by
  obtain ⟨c, hc, hcounted⟩ := Fallible.exists_left_of_forall₂ h.forall₂ hc'
  exact ⟨c, hc, exists_of_counted hcounted hm'⟩

theorem Counted.exists_append {cs₁ cs₂ cs' : List Class} (h : Counted added (cs₁ ++ cs₂) cs') :
    ∃ cs₁' cs₂', cs' = cs₁' ++ cs₂' ∧ Counted added cs₁ cs₁' ∧ Counted added cs₂ cs₂' := by
  rw [Counted, List.map_append] at h
  exact List.map_eq_append_iff.1 h

theorem Counted.ids (h : Counted added cs cs') :
    (cs'.flatMap methods).map Method.id = (cs.flatMap methods).map Method.id := by
  have := congrArg (List.flatMap fun r => r.2.2.map Prod.fst) h
  simpa only [List.flatMap_map, List.map_flatMap, List.map_map, Function.comp_def, counted,
    countedMethod] using this

theorem Counted.nodup (h : Counted added cs cs')
    (hnodup : ((cs.flatMap methods).map Method.id).Nodup) :
    ((cs'.flatMap methods).map Method.id).Nodup :=
  h.ids ▸ hnodup

def heading (c : Class) :
    TypeName × ClassFlags × List MethodId := (c.type, c.flags, c.methods.map Method.id)

theorem heading_modifyFirst (id : MethodId) (hid : ∀ m, (change m).id = m.id) (q : Class → Bool)
    (cs : List Class) :
    (modifyFirst q (·.modifyMethod id change) cs).map heading = cs.map heading := by
  refine map_modifyFirst (fun c => ?_) cs
  rw [heading, type_modifyMethod, flags_modifyMethod, map_methods_modifyMethod hid, heading]

theorem exists_type_iff_of_heading {t : TypeName} (h : cs'.map heading = cs.map heading) :
    (∃ c ∈ cs', c.type = t) ↔ ∃ c ∈ cs, c.type = t := by
  have htypes (cs : List Class) : (∃ c ∈ cs, c.type = t) ↔ t ∈ (cs.map heading).map Prod.fst := by
    simp only [List.map_map, List.mem_map, Function.comp_def, heading]
  rw [htypes, h, ← htypes]

def onMethod (id : MethodId) (change : Method → Method) (m : Method) :
    Method := if m.id = id then change m else m

theorem map_onMethod_of_not_mem (h : id ∉ ms.map Method.id) : ms.map (onMethod id change) = ms := by
  refine (List.map_congr_left fun m hm => ?_).trans (List.map_id ms)
  exact if_neg fun heq : m.id = id => h (heq ▸ List.mem_map_of_mem hm)

theorem modifyFirst_eq_map (hnodup : (ms.map Method.id).Nodup) :
    modifyFirst (·.id = id) change ms = ms.map (onMethod id change) := by
  induction ms with
  | nil => rfl
  | cons m rest ih =>
    obtain ⟨hm, hrest⟩ := List.nodup_cons.1 hnodup
    rw [modifyFirst, List.map_cons, onMethod]
    by_cases hid : m.id = id
    · subst hid
      rw [if_pos (by simp), if_pos rfl, map_onMethod_of_not_mem hm]
    · rw [if_neg (by simpa using hid), if_neg hid, ih hrest]

theorem modifyMethod_eq_mapMethods (hnodup : (c.methods.map Method.id).Nodup) :
    c.modifyMethod id change = c.mapMethods (onMethod id change) := by
  rw [methods, List.map_append] at hnodup
  obtain ⟨hdirect, hvirtual, hdisjoint⟩ := List.nodup_append'.1 hnodup
  rw [modifyMethod, mapMethods]
  split
  · rename_i hany
    have hmem : id ∈ c.direct.map Method.id := by simpa using hany
    rw [modifyFirst_eq_map hdirect, map_onMethod_of_not_mem (hdisjoint hmem)]
  · rename_i hany
    have hmem : id ∉ c.direct.map Method.id := by simpa using hany
    rw [modifyFirst_eq_map hvirtual, map_onMethod_of_not_mem hmem]

theorem mapMethods_onMethod_of_not_mem (h : id ∉ c.methods.map Method.id) :
    c.mapMethods (onMethod id change) = c := by
  rw [methods, List.map_append, List.mem_append, not_or] at h
  rw [mapMethods, map_onMethod_of_not_mem h.1, map_onMethod_of_not_mem h.2]

theorem modifyFirst_eq_mapMethods (hnodup : ((cs.flatMap methods).map Method.id).Nodup)
    (hc : cs.find? (·.type = id.holder) = some c) (hid : id ∈ c.methods.map Method.id) :
    modifyFirst (·.type = id.holder) (·.modifyMethod id change) cs =
      cs.map (·.mapMethods (onMethod id change)) := by
  induction cs with
  | nil => cases hc
  | cons d rest ih =>
    rw [List.flatMap_cons, List.map_append] at hnodup
    obtain ⟨hd, hrest, hdisjoint⟩ := List.nodup_append'.1 hnodup
    rw [modifyFirst, List.map_cons]
    rw [List.find?_cons] at hc
    split at hc
    · rename_i htype
      obtain rfl := Option.some.inj hc
      -- No method behind this class has the name.
      have hbehind : rest.map (·.mapMethods (onMethod id change)) = rest := by
        refine (List.map_congr_left fun d' hd' => ?_).trans (List.map_id rest)
        refine mapMethods_onMethod_of_not_mem fun hmem => hdisjoint hid ?_
        obtain ⟨m, hm, rfl⟩ := List.mem_map.1 hmem
        exact List.mem_map_of_mem (List.mem_flatMap.2 ⟨d', hd', hm⟩)
      rw [if_pos htype, modifyMethod_eq_mapMethods hd, hbehind]
    · rename_i htype
      have hnone : id ∉ d.methods.map Method.id := by grind
      rw [if_neg (Bool.eq_false_iff.1 htype), ih hrest hc, mapMethods_onMethod_of_not_mem hnone]

theorem counted_mapMethods {added : Nat} (hid : ∀ m, (change m).id = m.id)
    (hcount : ∀ m, (change m).processCount = m.processCount + added) :
    Counted (fun other => if other = id then added else 0) cs
      (cs.map (·.mapMethods (onMethod id change))) := by
  rw [Counted, List.map_map]
  refine List.map_congr_left fun c _ => ?_
  simp only [Function.comp_def, counted, methods_mapMethods, List.map_map]
  refine congrArg (fun ms => (c.type, c.flags, ms)) (List.map_congr_left fun m _ => ?_)
  simp only [countedMethod, onMethod]
  split
  · rw [hid, hcount, Nat.add_zero]
  · rfl

theorem counted_modifyFirst (id : MethodId) (hid : ∀ m, (change m).id = m.id)
    (hcount : ∀ m, (change m).processCount = m.processCount) (q : Class → Bool) (cs : List Class) :
    Counted (fun _ => 0) cs (modifyFirst q (·.modifyMethod id change) cs) := by
  refine map_modifyFirst (fun c => ?_) cs
  have hmethod (m : Method) : countedMethod (fun _ => 0) (change m) = countedMethod
      (fun _ => 0) m := by
    rw [countedMethod, hid, hcount, countedMethod]
  rw [counted, map_methods_modifyMethod hmethod, type_modifyMethod, flags_modifyMethod, counted]

end Class

namespace Program

variable {p : Program} {id : MethodId} {m : Method} {change : Method → Method}
  {before part behind : List Class}

theorem classes_modifyMethod_of_part (change : Method → Method)
    (hp : p.classes = before ++ (part ++ behind))
    (hbefore : ∀ c ∈ before, c.type ≠ id.holder) (hpart : ∃ c ∈ part, c.type = id.holder) :
    (p.modifyMethod id change).classes =
      before ++ (Class.modifyFirst (·.type = id.holder) (·.modifyMethod id change)
        part ++ behind) := by
  rw [modifyMethod, modifyClass, hp, Class.modifyFirst_append_of_none _ fun c hc =>
    decide_eq_false (hbefore c hc)]
  obtain ⟨c, hc, htype⟩ := hpart
  rw [Class.modifyFirst_append_of_exists behind ⟨c, hc, decide_eq_true htype⟩]

theorem exists_of_method?_of_part (hp : p.classes = before ++ (part ++ behind))
    (hbefore : ∀ c ∈ before, c.type ≠ id.holder) (hpart : ∃ c ∈ part, c.type = id.holder)
    (hm : p.method? id = some m) :
    ∃ c, part.find? (·.type = id.holder) = some c ∧ id ∈ c.methods.map Method.id := by
  obtain ⟨c, hc, hmethod⟩ := Option.bind_eq_some_iff.1 hm
  have hnone : before.find? (·.type = id.holder) = none := List.find?_eq_none.2 fun c hc => by
    simpa using hbefore c hc
  obtain ⟨c', hc'⟩ : ∃ c', part.find? (·.type = id.holder) = some c' := by
    obtain ⟨c', hc', htype⟩ := hpart
    exact Option.isSome_iff_exists.1 (List.find?_isSome.2 ⟨c', hc', decide_eq_true htype⟩)
  rw [class?, hp, List.find?_append, hnone, Option.none_or, List.find?_append, hc',
    Option.some_or] at hc
  obtain rfl := Option.some.inj hc
  refine ⟨c', hc', ?_⟩
  have hid : m.id = id := by simpa using List.find?_some hmethod
  exact hid ▸ List.mem_map_of_mem (List.mem_of_find?_eq_some hmethod)

end Program

end BytecodeOpt
