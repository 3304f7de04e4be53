import Federation.Proofs.FieldSet.Paths
import Federation.Schema.Checks
/-!
# Schema — what keys select

The check of keys follows each path of a field set by itself, as if the
fields that two paths share were two fields. Said of the field set as a
tree (`Schema.Offers`): a type has to have every field that is selected
of it, and the innermost type of that field every field that is selected
below. Since no field of a field set is missed by its paths, the two
come to the same (`followPath_paths_iff`), and the check of keys finds
nothing exactly where each key is offered by its type
(`keyProblems_eq_nil_iff_offers`).
-/

namespace Federation

namespace Schema

variable {s : Schema} {typeName : String}

/-- A type offers a selection: it has the field, and the innermost type of the field offers what is
selected below. Where nothing is selected below, no more is asked than the field. -/
inductive Offers (s : Schema) : (typeName : String) → FieldSelection → Prop
  | select {typeName name : String} {f : Field} {nested : List FieldSelection}
      (hfield : (s.type? typeName).bind (·.field? name) = some f)
      (hnested : ∀ n ∈ nested, s.Offers f.type.name n) :
      s.Offers typeName (.select name nested)

/-- A type offers a field set: it offers every selection at the top. -/
def OffersAll (s : Schema) (typeName : String) (fields : FieldSet) : Prop :=
  ∀ x ∈ fields.selections, s.Offers typeName x

theorem offers_select {name : String} {nested : List FieldSelection} :
    s.Offers typeName (.select name nested) ↔
      ∃ f, (s.type? typeName).bind (·.field? name) = some f ∧
        ∀ n ∈ nested, s.Offers f.type.name n := by
  constructor
  · rintro ⟨hfield, hnested⟩
    exact ⟨_, hfield, hnested⟩
  · rintro ⟨f, hfield, hnested⟩
    exact .select hfield hnested

/-- A path is followed to its end by taking one field, and from the innermost type of the field the
rest of the path. -/
theorem followPath_cons_eq_ok {name : String} {path : List String} :
    s.followPath typeName (name :: path) = .ok () ↔
      ∃ f, (s.type? typeName).bind (·.field? name) = some f ∧
        s.followPath f.type.name path = .ok () := by
  rw [followPath]
  cases (s.type? typeName).bind (·.field? name) <;> simp

/-- All paths of a selection are followed to their ends exactly where the selection is offered. -/
theorem followPath_paths_select_iff (x : FieldSelection) (typeName : String) :
    (∀ path ∈ x.paths, s.followPath typeName path = .ok ()) ↔ s.Offers typeName x := by
  induction x generalizing typeName with
  | select name nested ih =>
    rw [offers_select]
    constructor
    · intro h
      -- there is a path, be there nothing below, so the field is looked up
      obtain ⟨path, hpath⟩ := (FieldSelection.select name nested).exists_mem_paths
      obtain ⟨f, hfield, -⟩ := followPath_cons_eq_ok.mp (h _ hpath)
      refine ⟨f, hfield, fun n hn => (ih n hn _).mp fun rest hrest => ?_⟩
      obtain ⟨f', hfield', hfollow⟩ := followPath_cons_eq_ok.mp
        (h _ (FieldSelection.mem_paths_select.mpr (.inr ⟨n, hn, rest, hrest, rfl⟩)))
      obtain rfl : f = f' := Option.some.inj (hfield.symm.trans hfield')
      exact hfollow
    · rintro ⟨f, hfield, hnested⟩ path hpath
      rcases FieldSelection.mem_paths_select.mp hpath with ⟨-, rfl⟩ | ⟨n, hn, rest, hrest, rfl⟩
      · exact followPath_cons_eq_ok.mpr ⟨f, hfield, rfl⟩
      · exact followPath_cons_eq_ok.mpr ⟨f, hfield, (ih n hn _).mpr (hnested n hn) rest hrest⟩

/-- **Following every path is asking for the tree.** -/
theorem followPath_paths_iff (typeName : String) (fields : FieldSet) :
    (∀ path ∈ fields.paths, s.followPath typeName path = .ok ()) ↔
      s.OffersAll typeName fields := by
  have hselections : s.OffersAll typeName fields ↔ ∀ x ∈ fields.selections, ∀ path ∈ x.paths,
      s.followPath typeName path = .ok () :=
    forall₂_congr fun x _ => (followPath_paths_select_iff x typeName).symm
  rw [hselections]
  constructor
  · exact fun h x hx path hpath => h path (FieldSet.mem_paths.mpr ⟨x, hx, hpath⟩)
  · intro h path hpath
    obtain ⟨x, hx, hpath⟩ := FieldSet.mem_paths.mp hpath
    exact h x hx path hpath

/-- The check of keys follows every path of every key. -/
theorem keyProblems_eq_nil_iff :
    s.keyProblems = [] ↔ ∀ t ∈ s.ownership, ∀ key ∈ t.keys, ∀ path ∈ key.2.paths,
      s.followPath t.name path = .ok () := by
  simp only [keyProblems, List.flatMap_eq_nil_iff, List.filterMap_eq_nil_iff]
  refine forall₂_congr fun t _ => forall₂_congr fun key _ => forall₂_congr fun path _ => ?_
  cases s.followPath t.name path with
  | ok => exact ⟨fun _ => rfl, fun _ => rfl⟩
  | error e => exact ⟨nofun, nofun⟩

/-- **The check of keys finds nothing exactly where every key is offered by its type.** -/
theorem keyProblems_eq_nil_iff_offers :
    s.keyProblems = [] ↔ ∀ t ∈ s.ownership, ∀ key ∈ t.keys, s.OffersAll t.name key.2 := by
  rw [keyProblems_eq_nil_iff]
  exact forall₂_congr fun t _ => forall₂_congr fun key _ => followPath_paths_iff t.name key.2

end Schema

end Federation
