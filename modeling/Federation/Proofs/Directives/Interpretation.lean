import Federation.Subgraph.Declaration
import Mathlib.Data.List.Basic
/-!
# Directives — the field sets that applications give

An application says something about keys, or about fields of other
services, exactly when it is of that directive and its argument is a
field set. So what a declaration keeps of the applications on it are
their field sets: all of `@key`, and the last ones of `@requires` and of
`@provides` (`FieldDeclaration.requires_ofField`).
-/

namespace Federation

namespace Directive

open FederationDirective

/-- What an application says, by its name and its argument. -/
def Says (x : Directive) : FederationDirective → Prop
  | .key fields => x.name = keyName ∧ x.fieldSetArgument = .ok fields
  | .external => x.name = externalName
  | .extending => x.name = extendingName
  | .requires fields => x.name = requiresName ∧ x.fieldSetArgument = .ok fields
  | .provides fields => x.name = providesName ∧ x.fieldSetArgument = .ok fields
  | .tag name => x.name = tagName ∧ x.stringArgument "name" = .ok name
  | .other y => x = y ∧ isServiceOnly x.name = false ∧ x.name ≠ tagName

theorem map_eq_ok_iff {ε α β : Type} {f : α → β} {r : Except ε α} {b : β} :
    r.map f = .ok b ↔ ∃ a, r = .ok a ∧ f a = b := by
  cases r <;> simp [Except.map]

theorem toOption_eq_some_iff {ε α : Type} {r : Except ε α} {a : α} :
    r.toOption = some a ↔ r = .ok a := by
  cases r <;> simp [Except.toOption]

/-- **An application is interpreted as what it says.** The names are six, and differ. -/
theorem interpret_eq_ok_iff {x : Directive} {m : FederationDirective} :
    interpret x = .ok m ↔ x.Says m := by
  unfold interpret
  split_ifs with hkey hexternal hextends hrequires hprovides htag
  all_goals
    cases m <;>
      simp_all [Says, map_eq_ok_iff, isServiceOnly, serviceOnlyNames, keyName, externalName,
        extendingName, requiresName, providesName, tagName]

/-- The names of the directives whose argument is a field set. -/
def fieldSetNames : List String :=
  [keyName, requiresName, providesName]

/-- Where an application of these directives is well-formed, its argument is a field set. -/
theorem exists_fieldSetArgument {x : Directive} {m : FederationDirective}
    (h : interpret x = .ok m) (hname : x.name ∈ fieldSetNames) :
    ∃ fields, x.fieldSetArgument = .ok fields := by
  have hmeaning := interpret_eq_ok_iff.mp h
  have hother : ∀ {name : String}, name ∉ fieldSetNames → x.name ≠ name :=
    fun hnot heq => hnot (heq ▸ hname)
  cases m with
  | key fields => exact ⟨fields, hmeaning.2⟩
  | requires fields => exact ⟨fields, hmeaning.2⟩
  | provides fields => exact ⟨fields, hmeaning.2⟩
  | external => exact absurd hmeaning (hother (by decide))
  | extending => exact absurd hmeaning (hother (by decide))
  | tag name => exact absurd hmeaning.1 (hother (by decide))
  | other y =>
    have hall : ∀ name ∈ fieldSetNames, isServiceOnly name = true := by decide
    exact absurd (hall x.name hname) (by rw [hmeaning.2.1]; exact Bool.false_ne_true)

/-- A field set that is an argument was read from a text. -/
theorem parse_of_fieldSetArgument {x : Directive} {fields : FieldSet}
    (h : x.fieldSetArgument = .ok fields) : ∃ text, FieldSet.parse text = .ok fields := by
  unfold fieldSetArgument at h
  split at h
  · cases h
  · rename_i text _
    split at h
    · cases h
    · rename_i hparse
      cases h
      exact ⟨text, hparse⟩

/-- The field sets that the well-formed applications of a directive give, in order. -/
def fieldSets (name : String) (ds : List Directive) : List FieldSet :=
  (ds.filter (·.name == name)).filterMap (·.fieldSetArgument.toOption)

theorem mem_fieldSets {name : String} {ds : List Directive} {fields : FieldSet} :
    fields ∈ fieldSets name ds ↔
      ∃ x ∈ ds, x.name = name ∧ x.fieldSetArgument = .ok fields := by
  simp only [fieldSets, List.mem_filterMap, List.mem_filter, beq_iff_eq, and_assoc,
    toOption_eq_some_iff]

/-- What is selected of the meanings of applications is given by the applications that have it. -/
theorem filterMap_meanings {select : FederationDirective → Option FieldSet} {name : String}
    (h : ∀ (x : Directive) (fields : FieldSet), (∃ m, x.Says m ∧ select m = some fields) ↔
      x.name = name ∧ x.fieldSetArgument = .ok fields) (ds : List Directive) :
    (meanings ds).filterMap select = fieldSets name ds := by
  rw [meanings, List.filterMap_filterMap, fieldSets, ← List.filterMap_eq_filter,
    List.filterMap_filterMap]
  refine List.filterMap_congr fun x _ => Option.ext fun fields => ?_
  have hleft : (interpret x).toOption.bind select = some fields ↔
      ∃ m, x.Says m ∧ select m = some fields := by
    simp only [Option.bind_eq_some_iff, toOption_eq_some_iff, interpret_eq_ok_iff]
  rw [hleft, h]
  by_cases hname : x.name = name <;> simp [hname, Option.guard, toOption_eq_some_iff]

end Directive

open FederationDirective

/-- The keys of a declaration are the field sets of its `@key` applications. -/
theorem Declaration.keys_ofDefinition (c : TypeDefinition) :
    (ofDefinition c).keys = Directive.fieldSets keyName c.directives :=
  Directive.filterMap_meanings (fun x fields =>
    ⟨fun ⟨m, hmeaning, hselect⟩ => by cases m <;> cases hselect; exact hmeaning,
      fun h => ⟨.key fields, h, rfl⟩⟩) _

namespace FieldDeclaration

/-- The last `@requires` application counts. -/
theorem requires_ofField (f : Field) :
    (ofField f).requires = (Directive.fieldSets requiresName f.directives).getLast? :=
  congrArg List.getLast? (Directive.filterMap_meanings (fun x fields =>
    ⟨fun ⟨m, hmeaning, hselect⟩ => by cases m <;> cases hselect; exact hmeaning,
      fun h => ⟨.requires fields, h, rfl⟩⟩) _)

/-- The last `@provides` application counts. -/
theorem provides_ofField (f : Field) :
    (ofField f).provides = (Directive.fieldSets providesName f.directives).getLast? :=
  congrArg List.getLast? (Directive.filterMap_meanings (fun x fields =>
    ⟨fun ⟨m, hmeaning, hselect⟩ => by cases m <;> cases hselect; exact hmeaning,
      fun h => ⟨.provides fields, h, rfl⟩⟩) _)

end FieldDeclaration

end Federation
