import Federation.Composition.TypeGroup
import Federation.Proofs.Sequence
/-!
# Composition — what members are composed to

Every declared name of a member is composed once, at its first
occurrence (`map_name_composed`), from the declarations of that name
(`compose_of_mem`). A member without problems has one declaration for
each service, all of one type, and its arguments agree the same way.
-/

namespace Federation

namespace Declared

variable {α : Type}

/-! ## The first declarations of services -/

theorem firstPerService_sublist (ds : List (Declared α)) : (firstPerService ds).Sublist ds :=
  firstsBy_sublist _ ds

theorem firstPerService_ne_nil {ds : List (Declared α)} (h : ds ≠ []) :
    firstPerService ds ≠ [] := by
  obtain ⟨d, ds, rfl⟩ := List.exists_cons_of_ne_nil h
  exact List.cons_ne_nil _ _

theorem firstPerService_eq_self {ds : List (Declared α)} (h : (ds.map (·.rank)).Nodup) :
    firstPerService ds = ds :=
  firstsBy_eq_self h

/-- Where no service repeats itself, services have different ranks. -/
theorem nodup_rank_of_repeatedByService {ds : List (Declared α)} (h : repeatedByService ds = []) :
    (ds.map (·.rank)).Nodup := by
  refine nodup_map_of_filter_le fun a ha => ?_
  obtain ⟨d, hd, hrank⟩ := exists_mem_firstsBy (·.rank) ha
  have hone := (List.filter_eq_nil_iff.mp h) d hd
  simp only [decide_eq_true_eq, Nat.not_lt] at hone
  rwa [hrank] at hone

theorem nodup_rank_of_repetitionProblems {kind : MemberKind} {coordinate : Coordinate}
    {ds : List (Declared α)} (h : repetitionProblems kind coordinate ds = []) :
    (ds.map (·.rank)).Nodup :=
  nodup_rank_of_repeatedByService (List.map_eq_nil_iff.mp h)

/-! ## Agreement -/

theorem agree_iff {types : List (String × TypeRef)} :
    agree types = true ↔ ∀ a ∈ types, ∀ b ∈ types, a.2 = b.2 := by
  cases types with
  | nil => simp [agree]
  | cons first others =>
    simp only [agree, List.all_eq_true, beq_iff_eq]
    constructor
    · intro h
      have hfirst : ∀ a ∈ first :: others, a.2 = first.2 := by
        intro a ha
        rcases List.mem_cons.mp ha with rfl | ha
        · rfl
        · exact h a ha
      intro a ha b hb
      rw [hfirst a ha, hfirst b hb]
    · intro h b hb
      exact h b (List.mem_cons_of_mem _ hb) first List.mem_cons_self

theorem agree_of_typeProblems {element : TypedElement} {coordinate : Coordinate}
    {types : List (String × TypeRef)} (h : typeProblems element coordinate types = []) :
    ∀ a ∈ types, ∀ b ∈ types, a.2 = b.2 := by
  rw [← agree_iff]
  by_contra hne
  simp [typeProblems, hne] at h

/-! ## The declarations of each member -/

variable {name : α → String} {ds : List (Declared α)}

/-- The declarations of a member with a name. -/
def named (name : α → String) (n : String) (ds : List (Declared α)) : List (Declared α) :=
  ds.filter fun d => name d.node == n

theorem byMember_eq (name : α → String) (ds : List (Declared α)) :
    byMember name ds = (distinct (ds.map fun d => name d.node)).map fun n => named name n ds := rfl

theorem name_of_mem_named {n : String} {d : Declared α} (h : d ∈ named name n ds) :
    name d.node = n :=
  beq_iff_eq.mp (List.mem_filter.mp h).2

theorem mem_named_self (name : α → String) {d : Declared α} (h : d ∈ ds) :
    d ∈ named name (name d.node) ds :=
  List.mem_filter.mpr ⟨h, beq_self_eq_true _⟩

theorem named_ne_nil {n : String} (h : n ∈ ds.map fun d => name d.node) :
    named name n ds ≠ [] := by
  obtain ⟨d, hd, rfl⟩ := List.mem_map.mp h
  exact List.ne_nil_of_mem (mem_named_self name hd)

theorem named_mem_byMember (name : α → String) {n : String} (h : n ∈ ds.map fun d => name d.node) :
    named name n ds ∈ byMember name ds :=
  List.mem_map_of_mem (mem_distinct.mpr h)

theorem head_name_named {n : String} (h : n ∈ ds.map fun d => name d.node) :
    ((named name n ds).head?.map fun d => name d.node).getD "" = n := by
  obtain ⟨d, others, hcons⟩ := List.exists_cons_of_ne_nil (named_ne_nil h)
  have hd : d ∈ named name n ds := by
    rw [hcons]
    exact List.mem_cons_self
  rw [hcons, List.head?_cons, Option.map_some, Option.getD_some, name_of_mem_named hd]

section

variable {β : Type} {name' : β → String} {compose : List (Declared α) → Option β}

/-- A way to compose declarations that takes the name of one of them. -/
def KeepsName (name : α → String) (name' : β → String)
    (compose : List (Declared α) → Option β) : Prop :=
  ∀ ds, ds ≠ [] → ∃ d ∈ ds, ∃ b, compose ds = some b ∧ name' b = name d.node

/-- The member that declarations are composed to, of those that count. -/
theorem KeepsName.exists_composed (h : KeepsName name name' compose) {n : String}
    (hn : n ∈ ds.map fun d => name d.node) :
    ∃ b, compose (firstPerService (named name n ds)) = some b ∧ name' b = n := by
  obtain ⟨d, hd, b, hb, hname⟩ := h _ (firstPerService_ne_nil (named_ne_nil hn))
  exact ⟨b, hb, hname.trans (name_of_mem_named ((firstPerService_sublist _).subset hd))⟩

/-- **Every declared name is composed once, at its first occurrence.** -/
theorem KeepsName.map_name_composed (h : KeepsName name name' compose) (ds : List (Declared α)) :
    ((byMember name ds).filterMap fun ds => compose (firstPerService ds)).map name' =
      distinct (ds.map fun d => name d.node) := by
  have hsome : ∀ n ∈ distinct (ds.map fun d => name d.node),
      (compose (firstPerService (named name n ds))).map name' = some n := by
    intro n hn
    obtain ⟨b, hb, hname⟩ := h.exists_composed (mem_distinct.mp hn)
    rw [hb, Option.map_some, hname]
  rw [byMember_eq, List.filterMap_map, List.map_filterMap]
  exact (List.filterMap_congr hsome).trans List.filterMap_some

/-- A composed member is composed from the declarations of its name. -/
theorem KeepsName.compose_of_mem (h : KeepsName name name' compose) {b : β}
    (hb : b ∈ (byMember name ds).filterMap fun ds => compose (firstPerService ds)) :
    name' b ∈ (ds.map fun d => name d.node) ∧
      compose (firstPerService (named name (name' b) ds)) = some b := by
  obtain ⟨es, hes, hcompose⟩ := List.mem_filterMap.mp hb
  obtain ⟨n, hn, rfl⟩ := List.mem_map.mp hes
  obtain ⟨c, hc, hname⟩ := h.exists_composed (mem_distinct.mp hn)
  have hbc : some c = some b := hc.symm.trans hcompose
  obtain rfl := Option.some.inj hbc
  rw [hname]
  exact ⟨mem_distinct.mp hn, hcompose⟩

/-- Where no service repeats a member, all declarations of its name count. -/
theorem KeepsName.compose_named (h : KeepsName name name' compose) {b : β}
    (hb : b ∈ (byMember name ds).filterMap fun ds => compose (firstPerService ds))
    (hrank : ∀ d ∈ ds, ((named name (name d.node) ds).map (·.rank)).Nodup) :
    ∃ d ∈ ds, name d.node = name' b ∧ compose (named name (name' b) ds) = some b := by
  obtain ⟨hname, hcompose⟩ := h.compose_of_mem hb
  obtain ⟨d, hd, hdname⟩ := List.mem_map.mp hname
  have hnodup := hrank d hd
  rw [hdname] at hnodup
  rw [firstPerService_eq_self hnodup] at hcompose
  exact ⟨d, hd, hdname, hcompose⟩

end

end Declared

open Declared

namespace FieldDeclaration

variable {isRepeatable : String → Bool} {ds : List (Declared FieldDeclaration)}

theorem exists_canonical (h : ds ≠ []) : ∃ c ∈ ds, canonical? ds = some c := by
  cases hfind : ds.find? (!·.node.isExternal) with
  | some c => exact ⟨c, List.mem_of_find?_eq_some hfind, by rw [canonical?, hfind]; rfl⟩
  | none =>
    obtain ⟨d, others, rfl⟩ := List.exists_cons_of_ne_nil h
    exact ⟨d, List.mem_cons_self, by rw [canonical?, hfind]; rfl⟩

/-- A field is composed from its declarations, whichever of them is the canonical one. -/
theorem exists_compose (isRepeatable : String → Bool) (h : ds ≠ []) :
    ∃ c ∈ ds, ∃ f, compose? isRepeatable ds = some f ∧ f.name = c.node.name ∧
      f.type = c.node.node.type ∧
      f.arguments = addArguments c.node.node.arguments (ds.flatMap (·.node.node.arguments)) := by
  obtain ⟨c, hc, hcanonical⟩ := exists_canonical h
  refine ⟨c, hc, ?_⟩
  rw [compose?, hcanonical]
  exact ⟨_, rfl, rfl, rfl, rfl⟩

theorem description_of_compose {f : Field} (h : compose? isRepeatable ds = some f) :
    f.description = firstDescription (·.node.description) ds := by
  obtain ⟨c, -, rfl⟩ := Option.map_eq_some_iff.mp h
  rfl

theorem directives_of_compose {f : Field} (h : compose? isRepeatable ds = some f) :
    f.directives = mergedDirectives isRepeatable (·.node.directives) ds := by
  obtain ⟨c, -, rfl⟩ := Option.map_eq_some_iff.mp h
  rfl

theorem keepsName_compose (isRepeatable : String → Bool) :
    KeepsName name Field.name (compose? isRepeatable) := by
  intro ds hds
  obtain ⟨c, hc, f, hf, hname, -, -⟩ := exists_compose isRepeatable hds
  exact ⟨c, hc, f, hf, hname⟩

end FieldDeclaration

namespace InputValue

theorem description_of_compose {isRepeatable : String → Bool} {ds : List (Declared InputValue)}
    {v : InputValue} (h : compose? isRepeatable ds = some v) :
    v.description = firstDescription (·.description) ds := by
  obtain ⟨first, -, rfl⟩ := Option.map_eq_some_iff.mp h
  rfl

theorem directives_of_compose {isRepeatable : String → Bool} {ds : List (Declared InputValue)}
    {v : InputValue} (h : compose? isRepeatable ds = some v) :
    v.directives = mergedDirectives isRepeatable (·.directives) ds := by
  obtain ⟨first, -, rfl⟩ := Option.map_eq_some_iff.mp h
  rfl

theorem keepsName_compose (isRepeatable : String → Bool) :
    KeepsName name name (compose? isRepeatable) := by
  intro ds hds
  obtain ⟨d, others, rfl⟩ := List.exists_cons_of_ne_nil hds
  exact ⟨d, List.mem_cons_self, _, rfl, rfl⟩

end InputValue

namespace EnumValue

theorem description_of_compose {isRepeatable : String → Bool} {ds : List (Declared EnumValue)}
    {v : EnumValue} (h : compose? isRepeatable ds = some v) :
    v.description = firstDescription (·.description) ds := by
  obtain ⟨first, -, rfl⟩ := Option.map_eq_some_iff.mp h
  rfl

theorem directives_of_compose {isRepeatable : String → Bool} {ds : List (Declared EnumValue)}
    {v : EnumValue} (h : compose? isRepeatable ds = some v) :
    v.directives = mergedDirectives isRepeatable (·.directives) ds := by
  obtain ⟨first, -, rfl⟩ := Option.map_eq_some_iff.mp h
  rfl

theorem keepsName_compose (isRepeatable : String → Bool) :
    KeepsName name name (compose? isRepeatable) := by
  intro ds hds
  obtain ⟨d, others, rfl⟩ := List.exists_cons_of_ne_nil hds
  exact ⟨d, List.mem_cons_self, _, rfl, rfl⟩

end EnumValue

end Federation
