import Federation.Proofs.Supergraph.Graphs
import Federation.Supergraph.Annotation
/-!
# Supergraph — the numbers of graphs

Services whose names come to the same value are told apart by numbers. A
value by itself never ends like a number (`endsNumbered_baseChars`), and
a numbered one always does, so two numbered values are equal only if the
values are and the numbers are (`numbered_inj`). Hence services compete
for a value only with those that share it: the candidates that are taken
are the first ones, as many as there are services that share the value
(`numbered_mem_values_iff`), and the number of a service is how many
services with smaller names share its value (`foldl_add_eq`).
-/

namespace Federation

namespace Graph

/-! ## Characters -/

/-- Capital letters, digits and underscores, with no digit in front. -/
structure IsValue (cs : List Char) : Prop where
  chars : ∀ c ∈ cs, c.isUpper = true ∨ c.isDigit = true ∨ c = '_'
  start : ∀ c ∈ cs.head?, c.isDigit = false

theorem IsValue.append_underscore {cs ds : List Char} (h : IsValue cs)
    (hds : ∀ d ∈ ds, d.isDigit = true) : IsValue (cs ++ '_' :: ds) where
  chars c hc := by
    rcases List.mem_append.mp hc with hc | hc
    · exact h.chars c hc
    · rcases List.mem_cons.mp hc with rfl | hc
      · exact .inr (.inr rfl)
      · exact .inr (.inl (hds c hc))
  start c hc := by
    cases cs with
    | nil =>
      cases hc
      rfl
    | cons d ds => exact h.start c hc

theorem valueChar_spec (c : Char) :
    (valueChar c).isUpper = true ∨ (valueChar c).isDigit = true ∨ valueChar c = '_' := by
  by_cases hc : c.isAlphanum = true
  · rw [valueChar, if_pos hc]
    by_cases hletter : c.isAlpha = true
    · exact .inl (c.isUpper_toUpper_eq_isAlpha.trans hletter)
    · have hsmall : ¬c.isLower = true := fun hl => hletter (by simp [Char.isAlpha, hl])
      rw [Char.toUpper_eq_of_not_isLower hsmall]
      exact .inr (.inl (by simpa [Char.isAlphanum, hletter] using hc))
  · rw [valueChar, if_neg hc]
    exact .inr (.inr rfl)

theorem isValue_baseChars (name : List Char) : IsValue (baseChars name) := by
  have hchars : ∀ c ∈ name.map valueChar, c.isUpper = true ∨ c.isDigit = true ∨ c = '_' := by
    rw [List.forall_mem_map]
    exact fun c _ => valueChar_spec c
  -- what closes a number is put at the end, so what stands before it decides the start
  have hclosed : ∀ value : List Char, IsValue value →
      IsValue (if endsNumbered value then value ++ ['_'] else value) := by
    intro value hvalue
    split
    · exact hvalue.append_underscore (by simp)
    · exact hvalue
  refine hclosed _ ?_
  split
  · refine ⟨fun c hc => ?_, fun c hc => ?_⟩
    · rcases List.mem_cons.mp hc with rfl | hc
      · exact .inr (.inr rfl)
      · exact hchars c hc
    · cases hc
      rfl
  · rename_i hdigit
    refine ⟨hchars, fun c hc => ?_⟩
    rw [hc] at hdigit
    simpa using hdigit

/-! ## Numbered values -/

/-- A value with a number. With the number zero it stays as it is. -/
def numbered (base : String) (k : Nat) : String :=
  if k = 0 then base else s!"{base}_{k}"

theorem candidates_eq (base : String) (n : Nat) :
    candidates base n = (List.range (n + 1)).map (numbered base) := by
  rw [candidates, List.range_succ_eq_map, List.map_cons, List.map_map]
  rfl

theorem toList_numbered (base : String) {k : Nat} (hk : k ≠ 0) :
    (numbered base k).toList = base.toList ++ '_' :: Nat.toDigits 10 k := by
  rw [numbered, if_neg hk]
  simp [toString, Nat.toList_repr]

theorem isDigit_of_mem_toDigits {k : Nat} {c : Char} (h : c ∈ Nat.toDigits 10 k) :
    c.isDigit = true :=
  Nat.isDigit_of_mem_toDigits (by decide) (Nat.le_refl 10) h

theorem isValue_numbered {base : String} (h : IsValue base.toList) (k : Nat) :
    IsValue (numbered base k).toList := by
  by_cases hk : k = 0
  · rwa [numbered, if_pos hk]
  · rw [toList_numbered base hk]
    exact h.append_underscore fun d hd => isDigit_of_mem_toDigits hd

/-! An underscore is no digit, so that it marks where the digits at an end begin. -/

theorem takeWhile_reverse_append (cs : List Char) {ds : List Char}
    (hds : ∀ d ∈ ds, d.isDigit = true) :
    (cs ++ '_' :: ds).reverse.takeWhile Char.isDigit = ds.reverse := by
  have hreverse : (cs ++ '_' :: ds).reverse = ds.reverse ++ '_' :: cs.reverse := by simp
  rw [hreverse, List.takeWhile_append_of_pos fun d hd => hds d (List.mem_reverse.mp hd),
    List.takeWhile_cons_of_neg (by decide), List.append_nil]

theorem endsNumbered_append {cs ds : List Char} (hne : ds ≠ [])
    (hds : ∀ d ∈ ds, d.isDigit = true) : endsNumbered (cs ++ '_' :: ds) = true := by
  rw [endsNumbered, takeWhile_reverse_append cs hds]
  simp [hne]

/-- **A value by itself does not end like a number.** -/
theorem endsNumbered_baseChars (name : List Char) : endsNumbered (baseChars name) = false := by
  have hclosed : ∀ value : List Char,
      endsNumbered (if endsNumbered value then value ++ ['_'] else value) = false := by
    intro value
    split
    · rw [endsNumbered, takeWhile_reverse_append value (by simp)]
      rfl
    · rename_i h
      exact Bool.eq_false_iff.mpr h
  exact hclosed _

theorem endsNumbered_numbered_iff (name : String) (k : Nat) :
    endsNumbered (numbered (baseValue name) k).toList = true ↔ k ≠ 0 := by
  by_cases hk : k = 0
  · rw [numbered, if_pos hk, baseValue, String.toList_ofList, endsNumbered_baseChars]
    simp [hk]
  · rw [toList_numbered _ hk, endsNumbered_append Nat.toDigits_ne_nil
      fun d hd => isDigit_of_mem_toDigits hd]
    simp [hk]

/-- Digits behind an underscore can be told apart from what they follow. -/
theorem eq_of_append_digits {cs cs' ds ds' : List Char} (hds : ∀ d ∈ ds, d.isDigit = true)
    (hds' : ∀ d ∈ ds', d.isDigit = true) (h : cs ++ '_' :: ds = cs' ++ '_' :: ds') :
    cs = cs' ∧ ds = ds' := by
  have hdigits : ds.reverse = ds'.reverse := by
    rw [← takeWhile_reverse_append cs hds, h, takeWhile_reverse_append cs' hds']
  obtain rfl : ds = ds' := List.reverse_injective hdigits
  exact ⟨List.append_cancel_right h, rfl⟩

/-- **Values of names with numbers are equal only if the values are and the numbers are.** -/
theorem numbered_inj {m n : String} {j k : Nat} :
    numbered (baseValue m) j = numbered (baseValue n) k ↔
      baseValue m = baseValue n ∧ j = k := by
  refine ⟨fun h => ?_, fun ⟨hbase, hnumber⟩ => by rw [hbase, hnumber]⟩
  have hzero : j ≠ 0 ↔ k ≠ 0 := by
    rw [← endsNumbered_numbered_iff m, h, endsNumbered_numbered_iff]
  by_cases hj : j = 0
  · have hk : k = 0 := by omega
    rw [hj, hk] at h
    exact ⟨h, by rw [hj, hk]⟩
  · have hlists := congrArg String.toList h
    rw [toList_numbered _ hj, toList_numbered _ (hzero.mp hj)] at hlists
    obtain ⟨hbase, hdigits⟩ := eq_of_append_digits (fun d hd => isDigit_of_mem_toDigits hd)
      (fun d hd => isDigit_of_mem_toDigits hd) hlists
    rw [← Nat.toList_repr, ← Nat.toList_repr] at hdigits
    exact ⟨String.toList_inj.mp hbase, Nat.repr_injective (String.toList_inj.mp hdigits)⟩

/-! ## The search for a free value -/

/-- **The search ends**: with the first candidate that is not taken. -/
theorem exists_freeValue_eq (taken : List String) (base : String) :
    ∃ k, freeValue taken base = numbered base k ∧ numbered base k ∉ taken ∧
      ∀ j < k, numbered base j ∈ taken := by
  have hfree := freeValue_not_mem taken base
  rw [freeValue, candidates_eq, List.find?_map] at hfree ⊢
  cases hfind : (List.range (taken.length + 1)).find? ((!taken.contains ·) ∘ numbered base) with
  | none =>
    rw [hfind] at hfree
    have htaken : numbered base 0 ∈ taken := by simpa using List.find?_eq_none.mp hfind 0 (by simp)
    exact absurd htaken hfree
  | some k =>
    rw [hfind] at hfree
    obtain ⟨-, -, hbefore⟩ := List.find?_range_eq_some.mp hfind
    exact ⟨k, rfl, hfree, fun j hj => by simpa using hbefore j hj⟩

/-- Where the first candidates are taken, the search ends with the next one. -/
theorem freeValue_eq_numbered {taken : List String} {base : String} {k : Nat}
    (h : ∀ j, numbered base j ∈ taken ↔ j < k) : freeValue taken base = numbered base k := by
  obtain ⟨m, hvalue, hfree, hbefore⟩ := exists_freeValue_eq taken base
  have hle : ¬m < k := fun hlt => hfree ((h m).mpr hlt)
  have hge : ¬k < m := fun hlt => Nat.lt_irrefl k ((h k).mp (hbefore k hlt))
  have hm : m = k := by omega
  rw [hvalue, hm]

/-! ## One service after another -/

/-- The number of services that share the value of a name. -/
def sharing (services : List Subgraph) (name : String) : Nat :=
  services.countP fun g => baseValue g.name == baseValue name

theorem sharing_concat (services : List Subgraph) (g : Subgraph) (name : String) :
    sharing (services ++ [g]) name =
      sharing services name + if baseValue g.name = baseValue name then 1 else 0 := by
  simp [sharing, List.countP_append, List.countP_singleton]

/-- **The candidates that are taken are the first ones**, as many as services share the value. -/
theorem numbered_mem_values_iff (services : List Subgraph) (name : String) (j : Nat) :
    numbered (baseValue name) j ∈ (services.foldl add []).map (·.value) ↔
      j < sharing services name := by
  induction services using List.reverseRecOn generalizing name j with
  | nil => simp [sharing]
  | append_singleton services g ih =>
    have hnext := freeValue_eq_numbered (ih g.name)
    rw [List.foldl_append, List.foldl_cons, List.foldl_nil, add, List.map_append, List.mem_append,
      ih name j, List.map_singleton, List.mem_singleton, hnext, numbered_inj,
      sharing_concat]
    by_cases hbase : baseValue g.name = baseValue name
    · have hsharing : sharing services g.name = sharing services name := by
        rw [sharing, hbase, sharing]
      rw [if_pos hbase, hsharing, and_iff_right hbase.symm]
      omega
    · rw [if_neg hbase, Nat.add_zero, or_iff_left fun h => hbase h.1.symm]

/-- The number of a service among others: how many of them have smaller names and share its
value. -/
def numberAmong (services : List Subgraph) (g : Subgraph) : Nat :=
  services.countP fun h => decide (h.name < g.name) && baseValue h.name == baseValue g.name

/-- The graph of a service among others. -/
def among (services : List Subgraph) (g : Subgraph) : Graph :=
  { service := g.name
    url := g.url.getD ""
    value := numbered (baseValue g.name) (numberAmong services g) }

/-- A service with no smaller name does not change the number of another. -/
theorem numberAmong_concat {g a : Subgraph} (h : ¬g.name < a.name) (services : List Subgraph) :
    numberAmong (services ++ [g]) a = numberAmong services a := by
  simp only [numberAmong, List.countP_append, List.countP_singleton, decide_eq_false h,
    Bool.false_and, Bool.false_eq_true, if_false, Nat.add_zero]

theorem numberAmong_eq_sharing {services : List Subgraph} {g : Subgraph}
    (h : ∀ a ∈ services, a.name < g.name) : numberAmong services g = sharing services g.name := by
  refine List.countP_congr fun a ha => ?_
  rw [decide_eq_true (h a ha), Bool.true_and]

/-- **The graphs of services in the order of their names.** -/
theorem foldl_add_eq {services : List Subgraph}
    (h : services.Pairwise fun a b => a.name < b.name) :
    services.foldl add [] = services.map (among services) := by
  induction services using List.reverseRecOn with
  | nil => rfl
  | append_singleton services g ih =>
    obtain ⟨hbefore, -, hlast⟩ := List.pairwise_append.mp h
    have hlt : ∀ a ∈ services, a.name < g.name := fun a ha => hlast a ha g (by simp)
    have hsame : services.map (among services) = services.map (among (services ++ [g])) := by
      refine List.map_congr_left fun a ha => ?_
      rw [among, among, numberAmong_concat (String.lt_asymm (hlt a ha))]
    have hnumber : numberAmong (services ++ [g]) g = sharing services g.name := by
      rw [numberAmong_concat (String.lt_irrefl _), numberAmong_eq_sharing hlt]
    rw [List.foldl_append, List.foldl_cons, List.foldl_nil, add,
      freeValue_eq_numbered (numbered_mem_values_iff services g.name), ih hbefore, hsame,
      List.map_append, List.map_singleton, among, hnumber]

end Graph

/-! ## The enumeration -/

namespace Subgraphs

variable (s : Subgraphs)

/-- The value of a service: that of its name, numbered by the services with smaller names that share
it. -/
def graphName (g : Subgraph) : String :=
  Graph.numbered (Graph.baseValue g.name) (Graph.numberAmong s.services g)

theorem pairwise_inOrder : s.inOrder.Pairwise fun a b => a.name < b.name :=
  pairwise_mergeSort_lt Subgraph.name s.nodup

theorem graphs_eq : s.graphs = s.inOrder.map (Graph.among s.services) := by
  rw [graphs, map_fst_byName, Graph.foldl_add_eq s.pairwise_inOrder]
  refine List.map_congr_left fun g _ => ?_
  rw [Graph.among, Graph.numberAmong, s.inOrder_perm.countP_eq, Graph.among, Graph.numberAmong]

/-- **The enumeration of the graphs.** The search for a free value ends with the first candidate
that is not taken, whatever values are taken. The enumeration has one value for each service, in the
order of the names: the value of its name, with a number if services with smaller names share that
value, which is how many do. It is the value that a service goes by. No two values are equal, and
values are capital letters, digits and underscores, and do not start with a digit. -/
theorem graphDefinition_numbered :
    (∀ (taken : List String) (base : String), ∃ k,
      Graph.freeValue taken base = Graph.numbered base k ∧ Graph.numbered base k ∉ taken ∧
        ∀ j < k, Graph.numbered base j ∈ taken) ∧
    (∃ order : List Subgraph, order.Perm s.services ∧
      order.Pairwise (fun a b => a.name < b.name) ∧
      Supergraph.graphDefinition s.graphs =
        { name := "join__Graph"
          body := .enum (order.map fun g =>
            { name := s.graphName g
              directives := [Supergraph.application "join__graph"
                [("name", .string g.name), ("url", .string (g.url.getD ""))]] }) }) ∧
    (∀ g ∈ s.services, Supergraph.graphValue s.graphs g.name = .enum (s.graphName g)) ∧
    (s.services.map s.graphName).Nodup ∧
    ∀ g ∈ s.services, Graph.IsValue (s.graphName g).toList := by
  have hvalues : s.graphs.map (·.value) = s.inOrder.map s.graphName := by
    rw [graphs_eq, List.map_map]
    rfl
  refine ⟨Graph.exists_freeValue_eq, ⟨s.inOrder, s.inOrder_perm, s.pairwise_inOrder, ?_⟩,
    fun g hg => ?_, ?_, fun g _ => ?_⟩
  · rw [graphs_eq, Supergraph.graphDefinition, List.map_map]
    rfl
  · obtain ⟨graph, hmem, hservice, hfind⟩ := exists_graph hg
    rw [Supergraph.graphValue, hfind, Option.map_some, Option.getD_some]
    rw [graphs_eq] at hmem
    obtain ⟨g', hg', rfl⟩ := List.mem_map.mp hmem
    obtain rfl : g' = g := List.inj_on_of_nodup_map s.nodup (mem_inOrder.mp hg') hg hservice
    rfl
  · rw [← (s.inOrder_perm.map s.graphName).nodup_iff, ← hvalues]
    exact s.nodup_value_graphs
  · refine Graph.isValue_numbered ?_ _
    rw [Graph.baseValue, String.toList_ofList]
    exact Graph.isValue_baseChars _

/-- The last service is not mistaken for the second one. -/
example :
    let service := fun name : String => ({ name, url := none, content := .ok {} } : Subgraph)
    ({ services := [service "a_b_1", service "a_b", service "a-b"], nodup := by decide } :
      Subgraphs).graphs.map (fun g => (g.service, g.value)) =
        [("a-b", "A_B"), ("a_b", "A_B_1"), ("a_b_1", "A_B_1_")] := by
  cbv

end Subgraphs

end Federation
