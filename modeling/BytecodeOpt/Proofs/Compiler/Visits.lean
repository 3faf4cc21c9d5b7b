import BytecodeOpt.Proofs.Compiler.Findings
import BytecodeOpt.Proofs.Program.Counts

/-!
# How often methods are processed

A compilation processes every method with code to work on once.  It comes back once to the methods
that waited for a callee, and once to those that hold a sequence which became a method.  The methods
of new classes are processed once.
-/

namespace BytecodeOpt.Session

variable {c : Compiler} {stage : Stage} {s t : Session} {id : MethodId} {ids : List MethodId}
  {cls : Class} {before part behind : List Class} {x : Unit} {types : List TypeName}
  {names : Option LambdaNames}

/-! ## Commits -/

theorem Commits.counted (h : Commits s ids t) (hs : s.program.classes = before ++ (part ++ behind))
    (hbefore : ∀ id ∈ ids, ∀ c ∈ before, c.type ≠ id.holder)
    (hpart : ∀ id ∈ ids, ∃ c ∈ part, c.type = id.holder) :
    ∃ part', t.program.classes = before ++ (part' ++ behind) ∧ part'.map Class.heading =
      part.map Class.heading ∧
      (((part.flatMap Class.methods).map Method.id).Nodup →
        Class.Counted ids.count part part') := by
  induction h generalizing part with
  | nil same => exact ⟨part, same.program ▸ hs, rfl, fun _ => .refl part⟩
  | @cons s t u r m ids found program findings _ ih =>
    obtain ⟨hbefore₁, hbefore⟩ := List.forall_mem_cons.1 hbefore
    obtain ⟨hpart₁, hpart⟩ := List.forall_mem_cons.1 hpart
    have ht := Program.classes_modifyMethod_of_part (updateMethod r) hs hbefore₁ hpart₁
    rw [← program] at ht
    have hheading := Class.heading_modifyFirst r.id (id_updateMethod r)
      (fun c => decide (c.type = r.id.holder)) part
    obtain ⟨part', hu, hsame, hcounted⟩ := ih ht hbefore fun id hid =>
      (Class.exists_type_iff_of_heading hheading).2 (hpart id hid)
    refine ⟨part', hu, hsame.trans hheading, fun hnodup => ?_⟩
    obtain ⟨cls, hcls, hmem⟩ := Program.exists_of_method?_of_part hs hbefore₁ hpart₁ found
    have hfirst : Class.Counted (fun id => if id = r.id then 1 else 0) part
        (Class.modifyFirst (fun c => decide (c.type = r.id.holder))
          (·.modifyMethod r.id (updateMethod r)) part) := by
      rw [Class.modifyFirst_eq_mapMethods hnodup hcls hmem]
      exact Class.counted_mapMethods (fun _ => rfl) fun _ => rfl
    have htotal := hfirst.trans (hcounted (hfirst.nodup hnodup))
    have hcount : (fun id => (if id = r.id then 1 else 0) + ids.count id) =
        (r.id :: ids).count := by grind
    rwa [hcount] at htotal

theorem Commits.exists_holder (h : Commits s ids t) (hid : id ∈ ids) :
    ∃ cls ∈ s.program.classes, cls.type = id.holder := by
  induction h with
  | nil => cases hid
  | @cons s t u r m ids found program _ _ ih =>
    rcases List.mem_cons.1 hid with rfl | hid
    · obtain ⟨cls, hcls, -⟩ := Option.bind_eq_some_iff.1 found
      exact ⟨cls, List.mem_of_find?_eq_some hcls, by simpa using List.find?_some hcls⟩
    · have hheading := Class.heading_modifyFirst r.id (id_updateMethod r)
        (fun c => decide (c.type = r.id.holder))
        s.program.classes
      refine (Class.exists_type_iff_of_heading hheading).1 ?_
      rw [program] at ih
      exact ih hid

/-! ## Visits again -/

theorem counted_revisits (h : (ids.forM (revisit c stage)).run s = (.ok x, t))
    (hs : s.program.classes = part ++ behind)
    (hpart : ∀ id ∈ ids, ∃ cls ∈ part, cls.type = id.holder)
    (hnodup : ((part.flatMap Class.methods).map Method.id).Nodup) :
    ∃ part', t.program.classes = part' ++ behind ∧ Class.Counted ids.count part part' := by
  induction ids generalizing s part with
  | nil =>
    obtain rfl := (Prod.mk.inj h).2
    exact ⟨part, hs, .refl part⟩
  | cons id ids ih =>
    obtain ⟨_, u, hfirst, hrest⟩ := exists_of_run_bind (f := fun _ => ids.forM (revisit c stage)) h
    obtain ⟨hpart₁, hpart⟩ := List.forall_mem_cons.1 hpart
    obtain ⟨v, hprogram, -, hone⟩ := exists_of_revisit hfirst
    -- Waiting counts for nothing, what is committed then counts.
    have hv := Program.classes_modifyMethod_of_part Method.markWaiting
      (hs.trans (List.nil_append _).symm)
      (fun _ h => absurd h List.not_mem_nil) hpart₁
    rw [← hprogram] at hv
    have hwaits : Class.Counted (fun _ => 0) part
        (Class.modifyFirst (fun cls => decide (cls.type = id.holder))
        (·.modifyMethod id Method.markWaiting) part) := by
      refine Class.counted_modifyFirst id ?_ ?_ _ part <;> exact fun _ => rfl
    obtain ⟨part₁, hu, -, hcounted⟩ := (commits_processOne hone).counted hv
      (fun _ _ _ h => absurd h List.not_mem_nil) fun other hid => by
      obtain rfl := List.mem_singleton.1 hid
      exact (hwaits.exists_type_iff).2 hpart₁
    have hone := hwaits.trans (hcounted (hwaits.nodup hnodup))
    obtain ⟨part', ht, hothers⟩ :=
      ih hrest hu (fun other hid => hone.exists_type_iff.2 (hpart other hid))
      (hone.nodup hnodup)
    refine ⟨part', ht, ?_⟩
    have htotal := hone.trans hothers
    have hcount : (fun other => 0 + [id].count other + ids.count other) = (id :: ids).count := by
      grind
    rwa [hcount] at htotal

theorem census_revisit (h : (revisit c stage id).run s = (.ok x, t))
    (hdisabled : stage.outline = .disabled) :
    t.findings.census = s.findings.census := by
  obtain ⟨u, -, hkept, hone⟩ := exists_of_revisit h
  obtain ⟨r, v, hresult, hsame, hcommit⟩ := exists_of_processOne hone
  obtain ⟨m, -, -, hfindings⟩ := exists_of_commit hcommit
  rw [hfindings, Findings.add, Compiler.outlineCandidates_of_process hdisabled hresult, ← hkept,
    hsame.findings]
  rfl

theorem census_revisits (h : (ids.forM (revisit c stage)).run s = (.ok x, t))
    (hdisabled : stage.outline = .disabled) :
    t.findings.census = s.findings.census := by
  have hkeeps (id : MethodId) : Keeps (·.findings.census = s.findings.census)
      (revisit c stage id) :=
    fun _ _ _ hs hrun => (census_revisit hrun hdisabled).trans hs
  exact Keeps.forM hkeeps ids rfl h

/-! ## New classes -/

/-- A class made during a compilation: it is no interface, and its methods were processed once if
their names are distinct. -/
structure Added (cls : Class) : Prop where
  plain : cls.flags.isInterface = false
  once : (cls.methods.map Method.id).Nodup → ∀ m ∈ cls.methods, m.processCount = 1

theorem exists_added_of_compileClass (hplain : cls.flags.isInterface = false)
    (hnew : ∀ m ∈ cls.methods, m.id.holder = cls.type ∧ m.processCount = 0)
    (h : (compileClass c stage cls).run s = (.ok x, t)) :
    ∃ cls', t.program.classes = s.program.classes ++ [cls'] ∧ cls'.type = cls.type ∧
      Added cls' := by
  obtain ⟨u, htype, hprogram, hcommits⟩ := exists_of_compileClass h
  have hu : u.program.classes = s.program.classes ++ ([cls] ++ []) := by
    rw [hprogram, List.append_nil]
  obtain ⟨part, ht, hheading, hcounted⟩ := hcommits.counted hu
    (fun id hid c hc => by
      obtain ⟨m, hm, rfl⟩ := List.mem_map.1 hid
      rw [(hnew m hm).1]
      simpa using List.any_eq_false.1 htype c hc)
    (fun id hid => by
      obtain ⟨m, hm, rfl⟩ := List.mem_map.1 hid
      exact ⟨cls, List.mem_singleton_self cls, (hnew m hm).1.symm⟩)
  obtain ⟨cls', rfl, hsame⟩ : ∃ cls', part = [cls'] ∧ cls'.heading = cls.heading := by
    simpa [List.map_eq_cons_iff] using hheading
  have hids : cls'.methods.map Method.id = cls.methods.map Method.id :=
    congrArg (fun r => r.2.2) hsame
  refine ⟨cls', by rw [ht, List.append_nil], congrArg Prod.fst hsame, ?_, fun hnodup m hm => ?_⟩
  · rw [show cls'.flags = cls.flags from congrArg (fun r => r.2.1) hsame, hplain]
  · rw [hids] at hnodup
    have hone := hcounted (by simpa using hnodup)
    obtain ⟨_, hcls', m', hm', -, hcount⟩ := hone.exists_method (List.mem_singleton_self cls') hm
    obtain rfl := List.mem_singleton.1 hcls'
    rw [hcount, (hnew m' hm').2, List.count_eq_one_of_mem hnodup (List.mem_map_of_mem hm')]

theorem Added.of_counted {cls' : Class} (h : Added cls)
    (hcounted : Class.counted (fun _ => 0) cls' = Class.counted (fun _ => 0) cls) : Added cls' where
  plain := by rw [show cls'.flags = cls.flags from congrArg (fun r => r.2.1) hcounted, h.plain]
  once hnodup m' hm' := by
    have hids : cls'.methods.map Method.id = cls.methods.map Method.id := by
      have := congrArg (fun r => r.2.2.map Prod.fst) hcounted
      simpa only [Class.counted, List.map_map, Function.comp_def, Class.countedMethod] using this
    obtain ⟨m, hm, -, hcount⟩ := Class.exists_of_counted hcounted hm'
    rw [hcount, h.once (hids ▸ hnodup) m hm]

theorem Added.of_forall_counted {added added' : List Class} (h : ∀ cls ∈ added, Added cls)
    (hcounted : Class.Counted (fun _ => 0) added added') :
    (∀ cls ∈ added', Added cls) ∧ added'.map Class.type = added.map Class.type := by
  refine ⟨fun cls' hcls' => ?_, hcounted.types⟩
  obtain ⟨cls, hcls, hsame⟩ := Fallible.exists_left_of_forall₂ hcounted.forall₂ hcls'
  exact (h cls hcls).of_counted hsame

/-! ## Sequences that become methods -/

def selected (c : Compiler) (s : Session) : List MethodId :=
  if c.options.outline.isEnabled then
    (Outline.Selection.ofCensus s.findings.census s.program c.options.outline).reprocess
  else []

theorem counted_outline (h : (outline c names).run s = (.ok types, t))
    (hnodup : s.program.methodIds.Nodup) (hcomplete : s.findings.census.Complete)
    (hholder : ∀ id ∈ selected c s, ∃ cls ∈ s.program.classes, cls.type = id.holder) :
    ∃ classes added, t.program.classes = classes ++ added ∧
      Class.Counted (selected c s).count s.program.classes classes ∧ added.map Class.type = types ∧
      ∀ cls ∈ added, Added cls := by
  rw [outline, run_get_bind] at h
  simp only at h
  split at h
  · rename_i hnone
    obtain ⟨rfl, rfl⟩ := of_run_pure h
    have hselected : selected c s = [] := by
      rw [selected]
      split
      · rename_i henabled
        rw [henabled, Bool.not_true, Bool.false_or] at hnone
        exact Outline.Selection.reprocess_eq_nil hcomplete hnone
      · rfl
    rw [hselected]
    exact ⟨_, [], (List.append_nil _).symm, .refl _, rfl, by simp⟩
  · rename_i hsome
    have hselected : selected c s =
        (Outline.Selection.ofCensus s.findings.census s.program c.options.outline).reprocess := by
      rw [selected, if_pos]
      by_contra henabled
      exact hsome (by rw [Bool.eq_false_iff.2 henabled]; rfl)
    obtain ⟨_, u, hclass, hrest⟩ := exists_of_run_bind h
    obtain ⟨_, v, hrevisit, hpure⟩ := exists_of_run_bind hrest
    obtain ⟨rfl, rfl⟩ := of_run_pure hpure
    obtain ⟨cls, hu, htype, hadded⟩ := exists_added_of_compileClass
      (by rw [Outline.Selection.supportClass, Class.flags_foldl_addMethod])
      (fun m hm => ⟨Outline.Selection.holder_supportClass _ _ _ m hm,
        Outline.Selection.processCount_supportClass hm⟩)
      hclass
    rw [← hselected] at hrevisit
    obtain ⟨classes, hv, hcounted⟩ := counted_revisits hrevisit hu hholder hnodup
    exact ⟨classes, [cls], hv, hcounted, by rw [List.map_singleton, htype], by simpa using hadded⟩

/-! ## Desugaring -/

theorem new_classFor (type : TypeName) (site : CallSite) (m : Method)
    (hm : m ∈ (Lambda.classFor type site).methods) :
    m.id.holder = (Lambda.classFor type site).type ∧ m.processCount = 0 := by
  have hmem := (Class.methods_foldl_addMethod _ _).mem_iff.1 hm
  rw [Lambda.classFor, Class.type_foldl_addMethod]
  simp only [Class.methods, List.nil_append, Lambda.methods, List.mem_cons, List.not_mem_nil,
    or_false] at hmem
  rcases hmem with rfl | rfl | rfl <;> exact ⟨rfl, rfl⟩

theorem exists_added_of_lambdas {used : List (TypeName × CallSite)}
    (h : (used.forM fun e => compileClass c stage (Lambda.classFor e.1 e.2)).run s = (.ok x, t)) :
    ∃ added, t.program.classes = s.program.classes ++ added ∧ added.map Class.type =
      used.map Prod.fst ∧
      ∀ cls ∈ added, Added cls := by
  induction used generalizing s with
  | nil =>
    obtain rfl := (Prod.mk.inj h).2
    exact ⟨[], (List.append_nil _).symm, rfl, by simp⟩
  | cons first used ih =>
    obtain ⟨_, u, hfirst, hrest⟩ := exists_of_run_bind
      (f := fun _ => used.forM fun e => compileClass c stage (Lambda.classFor e.1 e.2)) h
    obtain ⟨cls, hu, htype, hcls⟩ := exists_added_of_compileClass
      (by rw [Lambda.classFor, Class.flags_foldl_addMethod]) (new_classFor first.1 first.2) hfirst
    obtain ⟨added, ht, htypes, hadded⟩ := ih hrest
    refine ⟨cls :: added, by rw [ht, hu, List.append_assoc, List.singleton_append], ?_,
      List.forall_mem_cons.2 ⟨hcls, hadded⟩⟩
    rw [List.map_cons, htypes, htype, Lambda.classFor, Class.type_foldl_addMethod, List.map_cons]

theorem counted_addLambdas (h : (addLambdas c stage).run s = (.ok types, t)) :
    ∃ classes added, t.program.classes = classes ++ added ∧
      Class.Counted (fun _ => 0) s.program.classes classes ∧ added.map Class.type = types ∧
      ∀ cls ∈ added, Added cls := by
  have hopen (sites : List CallSite) (p : Program) :
      Class.Counted (fun _ => 0) p.classes (sites.foldl openImplementation p).classes := by
    induction sites generalizing p with
    | nil => exact .refl _
    | cons site sites ih =>
      have hsite : Class.Counted (fun _ => 0) p.classes (openImplementation p site).classes := by
        refine Class.counted_modifyFirst site.implementation ?_ ?_ _ p.classes <;> exact fun _ =>
          rfl
      exact hsite.trans (ih _)
  obtain ⟨u, hprogram, hclasses, rfl⟩ := exists_of_addLambdas h
  obtain ⟨added, ht, hadded, hall⟩ := exists_added_of_lambdas hclasses
  exact ⟨u.program.classes, added, ht, hprogram ▸ hopen _ s.program, hadded, hall⟩

theorem exists_added_of_suppressionSupport
    (h : (addSuppressionSupport c stage).run s = (.ok types, t)) :
    ∃ added, t.program.classes = s.program.classes ++ added ∧ added.map Class.type = types ∧
      ∀ cls ∈ added, Added cls := by
  obtain ⟨rfl, rfl⟩ | ⟨rfl, hclass⟩ := of_addSuppressionSupport h
  · exact ⟨[], (List.append_nil _).symm, rfl, by simp⟩
  · obtain ⟨cls, ht, htype, hcls⟩ := exists_added_of_compileClass rfl (by decide) hclass
    exact ⟨[cls], ht, by rw [List.map_singleton, htype], by simpa using hcls⟩

/-- The later class has this type, and each of its methods is one of the earlier class under a name
made from the name it had, and was processed so often. -/
structure Continues (type : TypeName) (rename : MethodId → MethodId) (count : Method → Nat)
    (earlier later : Class) :
    Prop where
  type : later.type = type
  methods : ∀ m' ∈ later.methods, ∃ m ∈ earlier.methods, m'.id = rename m.id ∧
    m'.processCount = count m

def Stays (count : Method → Nat) (earlier later : Class) : Prop :=
  Continues earlier.type (fun id => id) count earlier later

def Accompanies (count : Method → Nat) (earlier later : Class) : Prop :=
  let companion := Pass.InterfaceMethods.companion earlier.type
  Continues companion (·.withHolder companion) count earlier later

section

variable {type : TypeName} {rename : MethodId → MethodId} {count : Method → Nat}
  {earlier middle later : Class}

theorem Continues.of_counted (h : Continues type rename count earlier middle)
    (hcounted : Class.counted (fun _ => 0) later = Class.counted (fun _ => 0) middle) :
    Continues type rename count earlier later where
  type := (congrArg Prod.fst hcounted).trans h.type
  methods m' hm' := by
    obtain ⟨m, hm, hid, hcount⟩ := Class.exists_of_counted hcounted hm'
    obtain ⟨m₀, hm₀, hid₀, hcount₀⟩ := h.methods m hm
    exact ⟨m₀, hm₀, by rw [hid, hid₀], by rw [hcount, Nat.add_zero, hcount₀]⟩

theorem Stays.trans_continues (h : Stays count earlier middle)
    (h' : Continues type rename Method.processCount middle later) :
    Continues type rename count earlier later where
  type := h'.type
  methods m' hm' := by
    obtain ⟨m, hm, hid, hcount⟩ := h'.methods m' hm'
    obtain ⟨m₀, hm₀, hid₀, hcount₀⟩ := h.methods m hm
    exact ⟨m₀, hm₀, by rw [hid, hid₀], hcount.trans hcount₀⟩

theorem Stays.trans (h : Stays count earlier middle) (h' : Stays Method.processCount middle later) :
    Stays count earlier later := by
  rw [Stays, ← h.type]
  exact h.trans_continues h'

theorem Stays.trans_accompanies (h : Stays count earlier middle)
    (h' : Accompanies Method.processCount middle later) :
    Accompanies count earlier later := by
  rw [Accompanies, ← h.type]
  exact h.trans_continues h'

end

section

open Pass.InterfaceMethods

theorem stays_dropMoved (cls : Class) : Stays Method.processCount cls (dropMoved cls) :=
  ⟨type_dropMoved cls, fun m hm => ⟨m, (methods_dropMoved_sublist cls).subset hm, rfl, rfl⟩⟩

theorem accompanies_of_companionClass? {cls cls' : Class} (h : companionClass? cls = some cls') :
    Accompanies Method.processCount cls cls' := by
  refine ⟨type_of_companionClass? h, fun m' hm' => ?_⟩
  obtain ⟨m, hm, -, rfl⟩ := (mem_methods_of_companionClass? h).1 hm'
  exact ⟨m, List.mem_append_left _ hm, rfl, rfl⟩

theorem Added.unmoved (h : Added cls) : dropMoved cls = cls ∧ companionClass? cls = none := by
  simp [dropMoved, companionClass?, h.plain]

theorem exists_companions {classes added : List Class}
    (h : (if c.options.movesInterfaceMethods then addCompanions else pure []).run s =
      (.ok types, t))
    (hs : s.program.classes = classes ++ added) (hadded : ∀ cls ∈ added, Added cls) :
    ∃ kept companions, t.program.classes = kept ++ added ++ companions ∧
      companions.map Class.type = types ∧
      List.Forall₂ (Stays Method.processCount) classes kept ∧
      ∀ cls ∈ companions, ∃ earlier ∈ classes, Accompanies Method.processCount earlier cls := by
  split at h
  · obtain ⟨ht, htypes⟩ := of_addCompanions h
    have hnone : added.filterMap companionClass? = [] :=
      List.filterMap_eq_nil_iff.2 fun cls hcls => (hadded cls hcls).unmoved.2
    have hsame : added.map dropMoved = added :=
      (List.map_congr_left fun cls hcls => (hadded cls hcls).unmoved.1).trans (List.map_id added)
    rw [hs, List.filterMap_append, hnone, List.append_nil, List.map_append, hsame] at ht
    rw [hs, List.filterMap_append, hnone, List.append_nil] at htypes
    refine ⟨_, _, ht, htypes.symm, ?_, fun cls hcls => ?_⟩
    · exact List.forall₂_map_right_iff.2 (List.forall₂_same.2 fun cls _ => stays_dropMoved cls)
    · obtain ⟨earlier, hearlier, hcompanion⟩ := List.mem_filterMap.1 hcls
      exact ⟨earlier, hearlier, accompanies_of_companionClass? hcompanion⟩
  · obtain ⟨rfl, rfl⟩ := of_run_pure h
    refine ⟨classes, [], by rw [hs, List.append_nil], rfl, ?_, by simp⟩
    exact List.forall₂_same.2 fun cls _ => ⟨rfl, fun m hm => ⟨m, hm, rfl, rfl⟩⟩

end

theorem counted_desugared {replaces : Bool} {lambdas support : List TypeName} {u : Session}
    {classes added : List Class}
    (hlambdas : (if replaces then addLambdas c stage else pure []).run s = (.ok lambdas, u))
    (hsupport : (addSuppressionSupport c stage).run u = (.ok support, t))
    (hs : s.program.classes = classes ++ added) (hadded : ∀ cls ∈ added, Added cls) :
    ∃ classes' new, Class.Counted (fun _ => 0) classes classes' ∧ t.program.classes =
      classes' ++ new ∧
      new.map Class.type = added.map Class.type ++ lambdas ++ support ∧ ∀ cls ∈ new, Added cls := by
  obtain ⟨before, lambdaClasses, hu, hbefore, hlambdaTypes, hlambdaClasses⟩ :
    ∃ before lambdaClasses,
      u.program.classes = before ++ lambdaClasses ∧
        Class.Counted (fun _ => 0) (classes ++ added) before ∧
        lambdaClasses.map Class.type = lambdas ∧ ∀ cls ∈ lambdaClasses, Added cls := by
    rw [← hs]
    split at hlambdas
    · exact counted_addLambdas hlambdas
    · obtain ⟨rfl, rfl⟩ := of_run_pure hlambdas
      exact ⟨_, [], (List.append_nil _).symm, .refl _, rfl, by simp⟩
  obtain ⟨classes', added', rfl, hclasses, hsame⟩ := hbefore.exists_append
  obtain ⟨hadded', haddedTypes⟩ := Added.of_forall_counted hadded hsame
  obtain ⟨supportClasses, ht, hsupportTypes, hsupportClasses⟩ :=
    exists_added_of_suppressionSupport hsupport
  refine ⟨classes', added' ++ lambdaClasses ++ supportClasses, hclasses, ?_, ?_, ?_⟩
  · rw [ht, hu, List.append_assoc, List.append_assoc, List.append_assoc]
  · rw [List.map_append, List.map_append, haddedTypes, hlambdaTypes, hsupportTypes]
  · grind

/-! ## A whole compilation -/

/-- How often a method is processed: once, once more if it waited for a callee, and once more if it
holds a sequence which became a method. -/
def visits (callers holders : List MethodId) (id : MethodId) : Nat :=
  1 + (if id ∈ callers then 1 else 0) + if id ∈ holders then 1 else 0

structure Visited (s : Session) (ids : List MethodId) (t : Session) : Prop where
  nodup : ids.Nodup
  mem_iff : ∀ id, id ∈ ids ↔ ∃ m ∈ s.program.methods, m.hasBody = true ∧ m.id = id
  holder : ∀ id ∈ ids, ∃ cls ∈ s.program.classes, cls.type = id.holder
  counted : Class.Counted ids.count s.program.classes t.program.classes

theorem Commits.visited (h : Commits s ids t) (hnodup : s.program.methodIds.Nodup)
    (hperm : ids.Perm ((s.program.methods.filter Method.hasBody).map Method.id)) :
    Visited s ids t := by
  have hs : s.program.classes = [] ++ (s.program.classes ++ []) := by
    rw [List.append_nil, List.nil_append]
  have hholder : ∀ id ∈ ids, ∃ cls ∈ s.program.classes, cls.type = id.holder := fun id =>
    h.exists_holder
  obtain ⟨classes, ht, -, hcounted⟩ :=
    h.counted hs (fun _ _ _ h => absurd h List.not_mem_nil) hholder
  rw [List.append_nil, List.nil_append] at ht
  exact {
    nodup := hperm.nodup_iff.2 (hnodup.sublist (List.filter_sublist.map Method.id))
    mem_iff := fun id => by simp only [hperm.mem_iff, List.mem_map, List.mem_filter, and_assoc]
    holder := hholder
    counted := ht ▸ hcounted hnodup }

structure Discovers (s : Session) (ids : List MethodId) (t : Session) :
    Prop extends Visited s ids t where
  nodup_callers : t.findings.doubleInlining.callers.Nodup
  callers_subset : t.findings.doubleInlining.callers ⊆ ids
  complete : t.findings.census.Complete
  census_sublist : (t.findings.census.methods.map Prod.fst).Sublist ids

theorem exists_discovers (h : (discover c names).run s = (.ok x, t)) (hfresh : s.findings = {})
    (hnodup : s.program.methodIds.Nodup) : ∃ ids, Discovers s ids t := by
  obtain ⟨ids, hcommits, hperm⟩ := commits_discover h
  obtain ⟨hnodupCallers, hcallers⟩ := hcommits.callers (by rw [hfresh]; exact List.nodup_nil)
  obtain ⟨found, hfound, hcensus⟩ := hcommits.exists_census
  rw [hfresh] at hcallers hcensus
  exact ⟨ids, {
    toVisited := hcommits.visited hnodup hperm
    nodup_callers := hnodupCallers
    callers_subset := fun id hid => (hcallers id hid).resolve_left List.not_mem_nil
    complete := hcommits.complete (by rw [hfresh]; exact Outline.Census.complete_empty)
    census_sublist := by rw [hcensus]; exact hfound }⟩

theorem counted_inlineAgain (h : (inlineAgain c names).run s = (.ok x, t))
    (hnodup : s.program.methodIds.Nodup)
    (hholder : ∀ id ∈ s.findings.doubleInlining.callers, ∃ cls ∈ s.program.classes,
      cls.type = id.holder) :
    Class.Counted s.findings.doubleInlining.callers.count s.program.classes t.program.classes ∧
      t.findings.census = s.findings.census := by
  rw [inlineAgain, run_get_bind] at h
  obtain ⟨classes, ht, hcounted⟩ := counted_revisits h (List.append_nil _).symm hholder hnodup
  rw [List.append_nil] at ht
  exact ⟨ht ▸ hcounted, census_revisits h rfl⟩

theorem selected_sublist (c : Compiler) (s : Session) :
    (selected c s).Sublist (s.findings.census.methods.map Prod.fst) := by
  rw [selected]
  split
  · exact List.filter_sublist.map Prod.fst
  · exact List.nil_sublist _

section

variable {p : Program} {journal : Journal} {names : Option LambdaNames}
  {callers holders : List MethodId} {m : Method}

theorem Visited.hasBody (h : Visited s ids t)
    (hprepare : (prepare c).run { program := p, journal } = (.ok names, s))
    (hids : p.methodIds.Nodup) (hm : m ∈ p.methods) (hid : m.id ∈ ids) : m.hasBody = true := by
  obtain ⟨_, hm', hbody, hsame⟩ := (h.mem_iff m.id).1 hid
  obtain ⟨m₀, hm₀, rfl⟩ := exists_of_prepare hprepare hm'
  rw [id_markWithoutBody] at hsame
  obtain rfl := List.inj_on_of_nodup_map hids hm₀ hm hsame
  rwa [hasBody_markWithoutBody] at hbody

/-- Methods with code to work on count on the first visit, and the others before it. -/
theorem Visited.processCount (h : Visited s ids t)
    (hprepare : (prepare c).run { program := p, journal } = (.ok names, s))
    (hids : p.methodIds.Nodup)
    (hcallers : callers.Nodup) (hholders : holders.Nodup) (hm : m ∈ p.methods)
    (hkept : markWithoutBody m ∈ s.program.methods) :
    (markWithoutBody m).processCount + (ids.count m.id + callers.count m.id + holders.count m.id) =
      m.processCount + visits callers holders m.id := by
  have hfirst : (if m.hasBody then 0 else 1) + ids.count m.id = 1 := by
    cases hbody : m.hasBody with
    | true =>
      have hmem := (h.mem_iff m.id).2 ⟨_, hkept, by rw [hasBody_markWithoutBody, hbody],
        id_markWithoutBody m⟩
      rw [List.count_eq_one_of_mem h.nodup hmem, if_pos rfl]
    | false =>
      have hmem : m.id ∉ ids := fun hmem =>
        Bool.false_ne_true (hbody.symm.trans (h.hasBody hprepare hids hm hmem))
      rw [List.count_eq_zero_of_not_mem hmem, if_neg Bool.false_ne_true]
  rw [visits, processCount_markWithoutBody, hcallers.count, hholders.count]
  omega

theorem Visited.stays (h : Visited s ids t)
    (hprepare : (prepare c).run { program := p, journal } = (.ok names, s))
    (hids : p.methodIds.Nodup) (hcallers : callers.Nodup) (hholders : holders.Nodup)
    {classes : List Class}
    (hcounted : Class.Counted (fun id => ids.count id + callers.count id + holders.count id)
      s.program.classes classes) :
    List.Forall₂ (Stays fun m => m.processCount + visits callers holders m.id)
      p.classes classes := by
  have hs : s.program.classes = p.classes.map (prepared c) := by rw [(of_prepare hprepare).1]; rfl
  have hall := hcounted.forall₂
  rw [hs, List.forall₂_map_left_iff] at hall
  refine ((List.forall₂_and_left (p := (· ∈ p.classes)) _ _).2 ⟨fun _ h => h, hall⟩).imp ?_
  rintro cls cls' ⟨hcls, hsame⟩
  refine ⟨(congrArg Prod.fst hsame).trans (type_prepared c cls), fun m' hm' => ?_⟩
  obtain ⟨_, hm, hid, hcount⟩ := Class.exists_of_counted hsame hm'
  obtain ⟨m, hold, rfl⟩ := List.mem_map.1 ((methods_prepared c cls).subset hm)
  rw [id_markWithoutBody] at hid hcount
  refine ⟨m, hold, hid, hcount.trans ?_⟩
  have hkept : markWithoutBody m ∈ s.program.methods :=
    Program.mem_methods.2 ⟨prepared c cls, hs ▸ List.mem_map_of_mem hcls, hm⟩
  exact h.processCount hprepare hids hcallers hholders
    (Program.mem_methods.2 ⟨cls, hcls, hold⟩) hkept

end

theorem counted_markWaiting (p : Program) :
    Class.Counted (fun _ => 0) p.classes (p.mapMethods Method.markWaiting).classes := by
  simp only [Class.Counted, Program.mapMethods, Program.mapClasses, List.map_map]
  refine List.map_congr_left fun cls _ => ?_
  simp only [Function.comp_def, Class.counted, Class.methods_mapMethods, List.map_map]
  rfl

/-- Before methods move to companions, the classes there were come first, and new ones behind
them. -/
theorem stays_of_phases {p : Program} {journal : Journal} {names : Option LambdaNames}
    {s₁ s₂ s₃ s₄ s₅ : Session} {outlined lambdas support : List TypeName} (hids : p.methodIds.Nodup)
    (hprepare : (prepare c).run { program := p, journal } = (.ok names, s₁))
    (hdiscover : (discover c names).run s₁ = (.ok (), s₂))
    (hagain : (inlineAgain c names).run s₂ = (.ok (), s₃))
    (houtline : (outline c names).run s₃ = (.ok outlined, s₄))
    (hlambdas : (if names.isSome then addLambdas c stage else pure []).run s₄ = (.ok lambdas, s₅))
    (hsupport : (addSuppressionSupport c stage).run s₅ = (.ok support, t)) :
    let visits := visits s₂.findings.doubleInlining.callers (selected c s₃)
    (∃ classes new, t.program.classes = classes ++ new ∧ new.map Class.type = outlined ++
      lambdas ++ support ∧
      List.Forall₂ (Stays fun m => m.processCount + visits m.id) p.classes classes ∧
        ∀ cls ∈ new, Added cls) ∧
    ∀ m ∈ p.methods, m.hasBody = false → visits m.id = 1 := by
  obtain ⟨hprogram, hfindings⟩ := of_prepare hprepare
  have hnodup₁ : s₁.program.methodIds.Nodup := by
    rw [hprogram]
    exact hids.sublist (Program.methodIds_mapClasses_sublist (ids_prepared c))
  obtain ⟨ids, hfirst⟩ := exists_discovers hdiscover hfindings hnodup₁
  have hnodup₂ : s₂.program.methodIds.Nodup := hfirst.counted.nodup hnodup₁
  have hholder₂ (id : MethodId) (hid : id ∈ ids) : ∃ cls ∈ s₂.program.classes,
      cls.type = id.holder :=
    hfirst.counted.exists_type_iff.2 (hfirst.holder id hid)
  obtain ⟨hsecond, hcensus⟩ := counted_inlineAgain hagain hnodup₂ fun id hid =>
    hholder₂ id (hfirst.callers_subset hid)
  have hselected : (selected c s₃).Sublist ids :=
    (selected_sublist c s₃).trans (hcensus ▸ hfirst.census_sublist)
  obtain ⟨classes, added, h₄, hthird, houtlined, hadded⟩ :=
    counted_outline houtline (hsecond.nodup hnodup₂)
    (hcensus ▸ hfirst.complete) fun id hid =>
      hsecond.exists_type_iff.2 (hholder₂ id (hselected.subset hid))
  obtain ⟨classes', new, hlast, ht, hnewTypes, hnew⟩ :=
    counted_desugared hlambdas hsupport h₄ hadded
  have hstays := hfirst.stays hprepare hids hfirst.nodup_callers (hselected.nodup hfirst.nodup)
    (((hfirst.counted.trans hsecond).trans hthird).trans hlast)
  refine ⟨⟨classes', new, ht, houtlined ▸ hnewTypes, hstays, hnew⟩, fun m hm hbody => ?_⟩
  have hmem : m.id ∉ ids := fun hmem =>
    Bool.false_ne_true (hbody.symm.trans (hfirst.hasBody hprepare hids hm hmem))
  simp only [visits, if_neg fun hmem' => hmem (hfirst.callers_subset hmem'),
    if_neg fun hmem' => hmem (hselected.subset hmem')]

/-- An optimised program has the classes it had, then new ones, then companions of its interfaces.
A method that stays or moves to a companion was processed as often as `visits` says, and one without
code to work on once.  A method of a new class was processed once.  None is left processed. -/
theorem processCounts_of_optimize (c : Compiler) (p : Program) (journal : Journal)
    (out : Compiler.Output) (t : Session)
    (hids : p.methodIds.Nodup) (hrun : (optimize c).run { program := p, journal } = (.ok out, t)) :
    ∃ names first second third,
      (prepare c).run { program := p, journal } = (.ok names, first) ∧
      (discover c names).run first = (.ok (), second) ∧ (inlineAgain c names).run second =
        (.ok (), third) ∧
      let visits := visits second.findings.doubleInlining.callers (selected c third)
      let count (m : Method) := m.processCount + visits m.id
      (∃ kept new companions, t.program.classes = kept ++ new ++ companions ∧
        out.newClasses = (new ++ companions).map Class.type ∧
          List.Forall₂ (Stays count) p.classes kept ∧
        (∀ cls ∈ new, (cls.methods.map Method.id).Nodup → ∀ m ∈ cls.methods, m.processCount = 1) ∧
        ∀ cls ∈ companions, ∃ earlier ∈ p.classes, Accompanies count earlier cls) ∧
      (∀ m ∈ p.methods, Ssa.lift? m = .ok none → visits m.id = 1) ∧ ∀ m ∈ t.program.methods,
        m.isProcessed = false := by
  obtain ⟨names, s₁, s₂, s₃, outlined, s₄, desugared, s₅, hprepare, hdiscover, hagain, houtline,
    hdesugar, ht, hout⟩ :=
    exists_of_optimize hrun
  obtain ⟨_, _, _, u, v, hlambdas, hsupport, hmoved, rfl⟩ := exists_of_finishDesugaring hdesugar
  obtain ⟨⟨classes, new, hv, hnewTypes, hstays, hnew⟩, hnone⟩ :=
    stays_of_phases hids hprepare hdiscover hagain houtline hlambdas hsupport
  obtain ⟨kept, companions, h₅, hmovedTypes, hkept, hcompanions⟩ := exists_companions hmoved hv hnew
  -- Clearing leaves all classes in their places.
  have hclear := counted_markWaiting s₅.program
  rw [← ht, h₅] at hclear
  obtain ⟨_, companions', h₆, hclear, hcompanions'⟩ := hclear.exists_append
  obtain ⟨kept', new', rfl, hkept', hnew'⟩ := hclear.exists_append
  obtain ⟨hnew, hsameTypes⟩ := Added.of_forall_counted hnew hnew'
  refine ⟨names, s₁, s₂, s₃, hprepare, hdiscover, hagain,
    ⟨kept', new', companions', h₆, ?_, ?_, ?_, ?_⟩, ?_, ?_⟩
  · rw [hout, List.map_append, hsameTypes, hnewTypes, hcompanions'.types, hmovedTypes]
    simp only [List.append_assoc]
  · have hkept := Fallible.forall₂_trans (fun _ _ _ h h' => h.trans h') hstays hkept
    exact Fallible.forall₂_trans (fun _ _ _ h h' => h.of_counted h') hkept hkept'.forall₂
  · exact fun cls hcls => (hnew cls hcls).once
  · intro cls' hcls'
    obtain ⟨cls, hcls, hsame⟩ := Fallible.exists_left_of_forall₂ hcompanions'.forall₂ hcls'
    obtain ⟨middle, hmiddle, haccompanies⟩ := hcompanions cls hcls
    obtain ⟨earlier, hearlier, hearly⟩ := Fallible.exists_left_of_forall₂ hstays hmiddle
    exact ⟨earlier, hearlier, (hearly.trans_accompanies haccompanies).of_counted hsame⟩
  · exact fun m hm hlift => hnone m hm (Method.lift?_eq_none_iff.1 hlift)
  · intro m hm
    rw [ht, Program.methods_mapMethods] at hm
    obtain ⟨m, -, rfl⟩ := List.mem_map.1 hm
    rfl

def mutualCalls : Program where
  classes := [
    { type := ⟨"p.Shape"⟩, flags := { isPublic := true, isInterface := true, isAbstract := true }
      direct := [{ id := unit, flags := { isPublic := true, isStatic := true }
                   code := some ⟨1, 0, [.const 0 (.int 7), .ret (some 0)], []⟩ }]
      virtual :=
        [{ id := area, flags := { isPublic := true, isAbstract := true }, code := none }] },
    { type := ⟨"p.A"⟩, flags := { isPublic := true }, direct := [
      { id := f, flags := { isPublic := true, isStatic := true }
        code := some ⟨1, 0, [.invoke .static g [], .moveResult 0, .branch .ne 0 none 4,
          .invoke .static f [], .ret none], []⟩ },
      { id := g, flags := { isPublic := true, isStatic := true }
        code := some ⟨2, 0, [.const 0 (.int 0), .branch .eq 0 none 3, .invoke .static f [],
          .invoke .static unit [], .moveResult 1, .ret (some 1)], []⟩ }] }]
where
  unit : MethodId := ⟨⟨"p.Shape"⟩, "unit", ⟨.int, []⟩⟩
  area : MethodId := ⟨⟨"p.Shape"⟩, "area", ⟨.int, []⟩⟩
  f : MethodId := ⟨⟨"p.A"⟩, "f", ⟨.void, []⟩⟩
  g : MethodId := ⟨⟨"p.A"⟩, "g", ⟨.int, []⟩⟩

theorem state_of_discover {c : Compiler} {s first second : Session} {names : Option LambdaNames}
    (hprepare : (prepare c).run s = (.ok names, first))
    (hdiscover : (discover c names).run first = (.ok (), second)) :
    ((prepare c >>= discover c).run s).2 = second := by
  rw [run_bind_of_ok (congrArg Prod.fst hprepare), hprepare, hdiscover]

theorem processCounts_of_optimize_mutualCalls :
    let c : Compiler :=
      { options := { outline := { isEnabled := false }, interfaceMethods := .auto } }
    let count (m : Method) := m.processCount + visits [mutualCalls.g] [] m.id
    mutualCalls.methodIds.Nodup ∧ ∃ out t, (optimize c).run { program := mutualCalls } =
      (.ok out, t) ∧
      ∃ kept new companions, t.program.classes = kept ++ new ++ companions ∧
        List.Forall₂ (Stays count) mutualCalls.classes kept ∧
        ∀ cls ∈ companions, ∃ earlier ∈ mutualCalls.classes, Accompanies count earlier cls := by
  intro c count
  have hids : mutualCalls.methodIds.Nodup := by decide
  obtain ⟨out, hout, -⟩ := Fallible.exists_of_succeeds (p := fun _ => true)
    (x := ((optimize c).run { program := mutualCalls }).1) (by decide +kernel)
  obtain ⟨names, first, second, third, hprepare, hdiscover, -,
    ⟨kept, new, companions, h, -, hkept, -, hcompanions⟩, -⟩ :=
    processCounts_of_optimize c mutualCalls {} out _ hids (Prod.ext hout rfl)
  have hcallers : second.findings.doubleInlining.callers = [mutualCalls.g] :=
    (congrArg (·.findings.doubleInlining.callers) (state_of_discover hprepare hdiscover)).symm.trans
    (by decide +kernel)
  rw [hcallers] at hkept hcompanions
  exact ⟨hids, out, _, Prod.ext hout rfl, kept, new, companions, h, hkept, hcompanions⟩

end BytecodeOpt.Session
