import BytecodeOpt.Member
import Mathlib.Data.List.DropRight

/-!
# Reading method identities back

What is read from a text can be written and read again: no part that was read holds a character that
would end it where it is written.
-/

namespace BytecodeOpt

theorem Text.mem_of_mem_trim {c : Char} {cs : List Char} (h : c ∈ trim cs) : c ∈ cs :=
  (List.dropWhile_suffix _).mem ((List.rdropWhile_prefix isBlank _).mem h)

theorem Text.trim_trim (cs : List Char) : trim (trim cs) = trim cs := by
  have hfirst : (trim cs).dropWhile isBlank = trim cs := by
    obtain ⟨after, hafter⟩ : trim cs <+: cs.dropWhile isBlank := List.rdropWhile_prefix isBlank _
    cases htrim : trim cs with
    | nil => rfl
    | cons c rest =>
      have hc := List.head?_dropWhile_not isBlank cs
      rw [← hafter, htrim] at hc
      exact List.dropWhile_cons_of_neg (by simpa using hc)
  rw [trim, hfirst]
  exact List.rdropWhile_idempotent isBlank _

namespace MethodId

open Text

variable {separator : Char} {cs before after : List Char}

theorem splitFirst?_eq_some : splitFirst? separator cs = some (before, after) ↔
    cs = before ++ separator :: after ∧ separator ∉ before := by
  induction cs generalizing before with
  | nil => simp [splitFirst?]
  | cons c rest ih =>
    by_cases hc : c = separator
    · subst hc
      cases before <;> simp [splitFirst?]
      grind
    · cases before <;> simp [splitFirst?, hc, ih]
      grind

theorem splitLast?_eq_some : splitLast? separator cs = some (before, after) ↔
    cs = before ++ separator :: after ∧ separator ∉ after := by
  rw [splitLast?, Option.map_eq_some_iff]
  constructor
  · rintro ⟨⟨_, _⟩, hsplit, heq⟩
    obtain ⟨rfl, rfl⟩ := Prod.mk.inj heq
    obtain ⟨hcs, hnot⟩ := splitFirst?_eq_some.1 hsplit
    exact ⟨by simpa using congrArg List.reverse hcs, by simpa using hnot⟩
  · rintro ⟨rfl, hnot⟩
    exact ⟨(after.reverse, before.reverse), splitFirst?_eq_some.2 (by simpa using hnot), by simp⟩

theorem splitAll_eq_splitOn (separator : Char) (cs : List Char) :
    splitAll separator cs = cs.splitOn separator := by
  induction cs with
  | nil => rfl
  | cons c rest ih =>
    obtain ⟨part, parts, hparts⟩ := List.exists_cons_of_ne_nil (List.splitOn_ne_nil separator rest)
    simp [splitAll, ih, List.splitOn_cons_eq_if_modifyHead, hparts]

theorem not_mem_of_mem_splitAll {part : List Char} (h : part ∈ splitAll separator cs) :
    separator ∉ part := by
  induction cs generalizing part with
  | nil => simp_all [splitAll]
  | cons c rest ih =>
    rw [splitAll] at h
    split at h
    case h_1 hnil => simp [splitAll_eq_splitOn] at hnil
    case h_2 hparts => grind

/-! ## Parts that can be written -/

/-- A text that no trimming changes and that does not hold the character behind it. -/
structure Plain (stop : Char) (text : String) : Prop where
  trimmed : trim text.toList = text.toList
  nonempty : text.toList ≠ []
  unstopped : stop ∉ text.toList

structure Legible (m : MethodId) : Prop where
  holder : '(' ∉ m.holder.name.toList
  name : '(' ∉ m.name.toList ∧ '.' ∉ m.name.toList ∧ m.name.toList ≠ []
  parameters : ∀ p ∈ m.proto.parameters, Plain ',' p.name
  returns : Plain ')' m.proto.returnType.name

theorem plain_trim {stop : Char} (h : stop ∉ cs) (hne : trim cs ≠ []) :
    Plain stop (String.ofList (trim cs)) where
  trimmed := by simp [trim_trim]
  nonempty := by simpa using hne
  unstopped := by simpa using fun hmem => h (mem_of_mem_trim hmem)

theorem plain_of_mem_parseParameters {p : TypeName} (h : p ∈ parseParameters cs) :
    Plain ',' p.name := by
  simp only [parseParameters, List.mem_map, List.mem_filter, decide_eq_true_iff] at h
  obtain ⟨_, ⟨⟨part, hpart, rfl⟩, hne⟩, rfl⟩ := h
  exact plain_trim (not_mem_of_mem_splitAll hpart) hne

theorem legible_of_parse {text : String} {m : MethodId} (h : parse? text = some m) : Legible m := by
  simp only [parse?, parseChars?, Option.bind_eq_bind, Option.bind_eq_some_iff, Prod.exists,
    splitFirst?_eq_some, splitLast?_eq_some] at h
  obtain ⟨_, afterOpen, ⟨-, hopen⟩, inside, afterClose, ⟨-, hclose⟩, holder, name,
    ⟨rfl, hdot⟩, hsome⟩ := h
  split at hsome
  case isTrue => cases hsome
  case isFalse hne =>
    obtain rfl := Option.some.inj hsome
    simp only [Bool.or_eq_true, List.isEmpty_iff, not_or] at hne
    simp only [List.mem_append, List.mem_cons, not_or] at hopen
    exact ⟨by simpa using hopen.1, by simp [hopen, hdot, hne],
      fun p => plain_of_mem_parseParameters, plain_trim hclose hne.2⟩

theorem parseParameters_intercalate {parameters : List TypeName}
    (h : ∀ p ∈ parameters, Plain ',' p.name) :
    parseParameters (List.intercalate [','] (parameters.map fun p => p.name.toList)) =
      parameters := by
  by_cases hnil : parameters = []
  · subst hnil
    rfl
  · have hsplit := @List.splitOn_intercalate _ (parameters.map fun p => p.name.toList) _ _ ','
      (by simpa using fun p hp => (h p hp).unstopped) (by simpa using hnil)
    have htrim : (parameters.map fun p => p.name.toList).map trim =
        parameters.map fun p => p.name.toList := by
      rw [List.map_map]
      exact List.map_congr_left fun p hp => (h p hp).trimmed
    have hkept : (parameters.map fun p => p.name.toList).filter (· ≠ []) =
        parameters.map fun p => p.name.toList :=
      List.filter_eq_self.2 (by simpa using fun p hp => (h p hp).nonempty)
    rw [parseParameters, splitAll_eq_splitOn, hsplit, htrim, hkept, List.map_map]
    simp [Function.comp_def]

theorem toList_text (m : MethodId) :
    m.text.toList = (m.holder.name.toList ++ '.' :: m.name.toList) ++
    '(' :: (List.intercalate [','] (m.proto.parameters.map fun p => p.name.toList) ++
      ')' :: m.proto.returnType.name.toList) := by
  simp [text, Proto.text, String.toList_intercalate, Function.comp_def]

theorem parse?_text_of_legible {m : MethodId} (h : Legible m) : parse? m.text = some m := by
  have hopen := splitFirst?_eq_some.2 ⟨m.toList_text, by simp [h.holder, h.name]⟩
  have hclose := fun inside => (@splitLast?_eq_some ')' _ inside _).2 ⟨rfl, h.returns.unstopped⟩
  have hdot := (@splitLast?_eq_some '.' _ m.holder.name.toList _).2 ⟨rfl, h.name.2.1⟩
  simp [parse?, parseChars?, hopen, hclose, hdot, h.name, h.returns.trimmed, h.returns.nonempty,
    parseParameters_intercalate h.parameters]

/-- What was read is read again from its written form. -/
theorem parse?_text_of_parse? {text : String} {m : MethodId} (h : parse? text = some m) :
    parse? m.text = some m :=
  parse?_text_of_legible (legible_of_parse h)

theorem parse?_text_of_parse?_bracketed :
    parse? "p.A.f( (int, ,) [) void" = some ⟨⟨"p.A"⟩, "f", ⟨⟨"void"⟩, [⟨"(int"⟩, ⟨") ["⟩]⟩⟩ ∧
    parse? "p.A.f((int,) [)void" = some ⟨⟨"p.A"⟩, "f", ⟨⟨"void"⟩, [⟨"(int"⟩, ⟨") ["⟩]⟩⟩ := by
  have h : parse? "p.A.f( (int, ,) [) void" =
      some ⟨⟨"p.A"⟩, "f", ⟨⟨"void"⟩, [⟨"(int"⟩, ⟨") ["⟩]⟩⟩ := by decide
  exact ⟨h, parse?_text_of_parse? h⟩

end MethodId

end BytecodeOpt
