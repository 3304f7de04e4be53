import Federation.Proofs.Composition.Legible
import Federation.Proofs.Supergraph.Annotations
import Federation.Proofs.Supergraph.Numbering
/-!
# Supergraph — the document is legible

The values of the graphs are names whatever the services are called, as
long as they are called something (`isValueName_of_mem_candidates`), and
the texts of field sets are names and spaces (`FieldSet.inBasicPlane_text`).
So annotations are legible, and with them the document of a legible
schema (`legible_annotated`).
-/

namespace Federation

/-! ## Values of graphs -/

namespace Graph

/-- A name that starts with no small letter. -/
def IsValueName (cs : List Char) : Prop :=
  (∃ c, cs.head? = some c ∧ Token.isNameStart c = true ∧ c.isLower = false) ∧
    ∀ c ∈ cs, Token.isNameChar c = true

/-- A name of this kind is no value of its own: `true`, `false` and `null` are written small. -/
theorem IsValueName.legible {s : String} (h : IsValueName s.toList) :
    isName s = true ∧ s ∉ Value.words := by
  obtain ⟨⟨c, hhead, hstart, hlower⟩, hchars⟩ := h
  obtain ⟨cs, hcons⟩ := List.head?_eq_some_iff.mp hhead
  refine ⟨isName_iff.mpr ⟨c, cs, hcons, hstart, fun x hx => hchars x ?_⟩, fun hword => ?_⟩
  · rw [hcons]
    exact List.mem_cons_of_mem c hx
  · have hsmall : ∀ w ∈ Value.words, w.toList.head?.any Char.isLower = true := by decide
    have hs := hsmall s hword
    rw [hhead, Option.any_some, hlower] at hs
    cases hs

/-- A value that is not empty is a name. -/
theorem IsValue.isValueName {cs : List Char} (h : IsValue cs) (hne : cs ≠ []) :
    IsValueName cs := by
  obtain ⟨c, cs, rfl⟩ := List.exists_cons_of_ne_nil hne
  have hdigit : c.isDigit = false := h.start c rfl
  have hfirst : c.isUpper = true ∨ c = '_' :=
    (h.chars c List.mem_cons_self).imp id fun hc =>
      hc.elim (fun hc => absurd (hdigit.symm.trans hc) Bool.false_ne_true) id
  refine ⟨⟨c, rfl, ?_, ?_⟩, fun x hx => ?_⟩
  · rcases hfirst with hc | rfl
    · simp [Token.isNameStart, Char.isAlpha, hc]
    · decide
  · rcases hfirst with hc | rfl
    · exact Bool.eq_false_iff.mpr (Char.not_isLower_of_isUpper hc)
    · decide
  · rcases h.chars x hx with hx | hx | rfl
    · simp [Token.isNameChar, Char.isAlphanum, Char.isAlpha, hx]
    · simp [Token.isNameChar, Char.isAlphanum, hx]
    · decide

/-- A name that is not empty has a value that is not empty. -/
theorem baseChars_ne_nil {name : List Char} (h : name ≠ []) : baseChars name ≠ [] := by
  have hvalue : name.map valueChar ≠ [] := fun hnil => h (List.map_eq_nil_iff.mp hnil)
  dsimp only [baseChars]
  split <;> split <;> simp [hvalue]

/-- The value of a service that has a name is a name, by itself and numbered. -/
theorem isValueName_of_mem_candidates {name : String} (h : name ≠ "") {n : Nat} {value : String}
    (hvalue : value ∈ candidates (baseValue name) n) : IsValueName value.toList := by
  have hchars : (baseValue name).toList = baseChars name.toList := String.toList_ofList
  have hne : (baseValue name).toList ≠ [] := by
    rw [hchars]
    exact baseChars_ne_nil fun hnil => h (String.toList_eq_nil_iff.mp hnil)
  rw [candidates_eq] at hvalue
  obtain ⟨k, -, rfl⟩ := List.mem_map.mp hvalue
  refine (isValue_numbered (hchars ▸ isValue_baseChars _) k).isValueName ?_
  by_cases hk : k = 0
  · rwa [numbered, if_pos hk]
  · rw [toList_numbered _ hk]
    simp

theorem freeValue_mem_candidates (taken : List String) (base : String) :
    freeValue taken base ∈ candidates base taken.length := by
  rw [freeValue]
  cases hfind : (candidates base taken.length).find? (!taken.contains ·) with
  | none => exact List.mem_cons_self
  | some value => exact List.mem_of_find?_eq_some hfind

/-- A graph belongs to a service, whose name gave it its value. -/
theorem exists_of_mem_foldl {services : List Subgraph} {graphs : List Graph} {g : Graph}
    (h : g ∈ services.foldl add graphs) : g ∈ graphs ∨
      ∃ s ∈ services, g.service = s.name ∧ g.url = s.url.getD "" ∧
        ∃ n, g.value ∈ candidates (baseValue s.name) n := by
  induction services generalizing graphs with
  | nil => exact .inl h
  | cons s services ih =>
    rcases ih h with h | ⟨t, ht, hspec⟩
    · rcases List.mem_append.mp h with h | h
      · exact .inl h
      · rw [List.mem_singleton.mp h]
        exact .inr ⟨s, List.mem_cons_self, rfl, rfl, _, freeValue_mem_candidates _ _⟩
    · exact .inr ⟨t, List.mem_cons_of_mem s ht, hspec⟩

/-- A graph that can be written: its value is a name, and its service and address are plain. -/
structure Legible (g : Graph) : Prop where
  value : isName g.value = true ∧ g.value ∉ Value.words
  service : InBasicPlane g.service
  url : InBasicPlane g.url

end Graph

/-! ## Texts of field sets -/

namespace FieldSelection

/-- Pieces without characters above U+FFFF. -/
def BasicPieces (ps : List Piece) : Prop :=
  ∀ p ∈ ps, ∀ c ∈ p.chars, c.toNat ≤ 0xFFFF

theorem BasicPieces.append {ps qs : List Piece} (hp : BasicPieces ps) (hq : BasicPieces qs) :
    BasicPieces (ps ++ qs) := by
  intro p hmem
  exact (List.mem_append.mp hmem).elim (hp p) (hq p)

theorem lt_of_isAlphanum {c : Char} (h : c.isAlphanum = true) : c.toNat < 128 := by
  simp only [Char.isAlphanum, Char.isAlpha, Char.isUpper, Char.isLower, Char.isDigit,
    Bool.or_eq_true, Bool.and_eq_true, decide_eq_true_eq, UInt32.le_iff_toNat_le, ge_iff_le] at h
  have hval : c.toNat = c.val.toNat := rfl
  have hdigit : '9'.val.toNat = 57 := rfl
  have hupper : 'Z'.val.toNat = 90 := rfl
  have hlower : 'z'.val.toNat = 122 := rfl
  omega

theorem lt_of_isNameChar {c : Char} (h : Token.isNameChar c = true) : c.toNat < 128 := by
  rw [Token.isNameChar, Bool.or_eq_true, decide_eq_true_eq] at h
  rcases h with h | rfl
  · exact lt_of_isAlphanum h
  · decide

theorem basicPieces_name {n : String} (h : isName n = true) : BasicPieces [.name n] := by
  obtain ⟨c, cs, hn, hc, hcs⟩ := isName_iff.mp h
  have hstart : Token.isNameChar c = true := by
    simp only [Token.isNameStart, Bool.or_eq_true] at hc
    simp only [Token.isNameChar, Char.isAlphanum, Bool.or_eq_true]
    exact hc.imp .inl id
  intro p hp x hx
  rw [List.mem_singleton.mp hp] at hx
  have hmem : x ∈ c :: cs := by
    rw [← hn]
    exact hx
  have hchar : Token.isNameChar x = true := by
    rcases List.mem_cons.mp hmem with rfl | hmem
    · exact hstart
    · exact hcs x hmem
  have hlt := lt_of_isNameChar hchar
  omega

theorem basicPieces_of_decide {ps : List Piece}
    (h : (ps.all fun p => p.chars.all fun c => c.toNat ≤ 0xFFFF) = true) : BasicPieces ps := by
  intro p hp c hc
  exact of_decide_eq_true (List.all_eq_true.mp (List.all_eq_true.mp h p hp) c hc)

mutual

theorem basicPieces_pieces : ∀ s : FieldSelection, s.Legible → BasicPieces s.pieces
  | select field [], h => basicPieces_name (legible_select.mp h).1
  | select field (s :: ss), h => by
    obtain ⟨hn, hnested⟩ := legible_select.mp h
    have hopen : BasicPieces [.space, .punctuator .openBrace, .space] :=
      basicPieces_of_decide (by decide)
    have hclose : BasicPieces [.space, .punctuator .closeBrace] :=
      basicPieces_of_decide (by decide)
    have hlist := basicPieces_listPieces (s :: ss) hnested
    rw [pieces]
    exact ((basicPieces_name hn).append (hopen.append hlist)).append hclose

theorem basicPieces_listPieces : ∀ ss : List FieldSelection, (∀ s ∈ ss, s.Legible) →
    BasicPieces (listPieces ss)
  | [], _ => nofun
  | [s], h => basicPieces_pieces s (h s List.mem_cons_self)
  | s :: s' :: ss, h => by
    obtain ⟨hs, hss⟩ := List.forall_mem_cons.mp h
    have hspace : BasicPieces [.space] := basicPieces_of_decide (by decide)
    exact (basicPieces_pieces s hs).append (hspace.append (basicPieces_listPieces (s' :: ss) hss))

end

end FieldSelection

/-- A field set is written in names, spaces and braces. -/
theorem FieldSet.inBasicPlane_text {s : FieldSet} (h : s.Legible) : InBasicPlane s.text := by
  intro c hc
  rw [text, Piece.render, String.toList_ofList] at hc
  obtain ⟨p, hp, hc⟩ := List.mem_flatMap.mp hc
  exact FieldSelection.basicPieces_listPieces s.selections h.selections p hp c hc

/-! ## Annotations -/

namespace Value

theorem legible_string {s : String} (h : InBasicPlane s) : (string s).Legible := by
  intro x hx
  rw [List.mem_singleton.mp hx]
  exact h

theorem legible_enum {name : String} (h : isName name = true ∧ name ∉ words) :
    (enum name).Legible := by
  intro x hx
  rw [List.mem_singleton.mp hx]
  exact h

end Value

namespace Supergraph

theorem legible_application {name : String} {arguments : List (String × Value)}
    (hname : isName name = true)
    (h : ∀ a ∈ arguments, isName a.1 = true ∧ a.2.Legible) :
    (application name arguments).Legible where
  name := hname
  arguments := by
    rw [application, List.forall_mem_map]
    exact h

/-- An argument under a name, with a value that reads back. -/
theorem legible_argument {name : String} {value : Value} (hname : isName name = true)
    (h : value.Legible) : isName (name, value).1 = true ∧ (name, value).2.Legible :=
  ⟨hname, h⟩

/-- What a record says can be written: the services have graphs whose values are names, and the
field sets have names only. -/
structure Writable (graphs : List Graph) (r : TypeOwnership) : Prop where
  owner : ∀ service ∈ r.owner, (graphValue graphs service).Legible
  keys : ∀ key ∈ r.keys, (graphValue graphs key.1).Legible ∧ InBasicPlane key.2.text
  contributions : ∀ f ∈ r.fields, ∀ c ∈ f.contributions, (graphValue graphs c.service).Legible ∧
    (∀ fields ∈ c.requires, InBasicPlane fields.text) ∧
      ∀ fields ∈ c.provides, InBasicPlane fields.text

variable {graphs : List Graph} {r : TypeOwnership}

/-- The annotation of a field is legible, whichever service resolves it. -/
theorem Writable.annotationOfField {f : FieldOwnership} (h : Writable graphs r)
    (hf : f ∈ r.fields) {c : FieldContribution} (hc : c ∈ f.contributions) :
    (annotationOfField graphs c).Legible := by
  obtain ⟨hgraph, hrequires, hprovides⟩ := h.contributions f hf c hc
  have hfields : ∀ (name : String) (fields : Option FieldSet), isName name = true →
      (∀ fs ∈ fields, InBasicPlane fs.text) →
      ∀ a ∈ (fields.map fun fs => (name, Value.string fs.text)).toList,
        isName a.1 = true ∧ a.2.Legible := by
    intro name fields hname htext a ha
    obtain ⟨fs, hfs, rfl⟩ := Option.map_eq_some_iff.mp (Option.mem_toList.mp ha)
    exact legible_argument hname (Value.legible_string (htext fs hfs))
  refine legible_application (by decide) fun a ha => ?_
  rcases List.mem_append.mp ha with ha | ha
  · rcases List.mem_cons.mp ha with rfl | ha
    · exact legible_argument (by decide) hgraph
    · exact hfields "requires" c.requires (by decide) hrequires a ha
  · exact hfields "provides" c.provides (by decide) hprovides a ha

theorem mem_of_resolver? {f : FieldOwnership} {c : FieldContribution}
    (h : resolver? f = some c) : c ∈ f.contributions := by
  cases howner : f.owner? with
  | some owner =>
    rw [resolver?, howner] at h
    cases h
    exact List.mem_of_find?_eq_some howner
  | none =>
    rw [resolver?, howner] at h
    exact List.mem_of_mem_head? h

theorem Writable.annotateField (h : Writable graphs r) {f : Field} (hf : f.Legible) :
    (annotateField graphs r f).Legible := by
  rw [Supergraph.annotateField]
  split
  · exact hf
  · rename_i c hc
    obtain ⟨o, ho, hresolver⟩ := Option.bind_eq_some_iff.mp hc
    have hmem : o ∈ r.fields := List.mem_of_find?_eq_some ho
    refine { hf with directives := fun x hx => ?_ }
    rcases List.mem_append.mp hx with hx | hx
    · exact hf.directives x hx
    · rw [List.mem_singleton.mp hx]
      exact h.annotationOfField hmem (mem_of_resolver? hresolver)

theorem Writable.typeAnnotations (h : Writable graphs r) :
    ∀ x ∈ typeAnnotations graphs r, x.Legible := by
  intro x hx
  rcases List.mem_append.mp hx with hx | hx
  · cases howner : r.owner with
    | none =>
      rw [howner] at hx
      cases hx
    | some owner =>
      rw [howner] at hx
      dsimp only at hx
      split at hx
      · cases hx
      · rw [List.mem_singleton.mp hx]
        have hgraph := h.owner owner howner
        exact legible_application (by decide)
          (List.forall_mem_singleton.mpr (legible_argument (by decide) hgraph))
  · obtain ⟨⟨service, key⟩, hkey, rfl⟩ := List.mem_map.mp hx
    obtain ⟨hgraph, htext⟩ := h.keys _ hkey
    have htext := Value.legible_string htext
    exact legible_application (by decide)
      (List.forall_mem_cons.mpr
        ⟨legible_argument (by decide) hgraph,
          List.forall_mem_singleton.mpr (legible_argument (by decide) htext)⟩)

/-- A legible type stays legible when it is annotated with a record that can be written. -/
theorem legible_annotate {s : Schema} {t : TypeDefinition} (ht : t.Legible)
    (h : ∀ r, s.ownership? t.name = some r → Writable graphs r) :
    (annotate s graphs t).Legible := by
  rw [annotate]
  split
  · exact ht
  rename_i r hr
  have hwritable := h r hr
  have hdirectives : ∀ x ∈ t.directives ++ typeAnnotations graphs r, x.Legible := by
    intro x hx
    rcases List.mem_append.mp hx with hx | hx
    · exact ht.directives x hx
    · exact hwritable.typeAnnotations x hx
  have hfields : ∀ f ∈ t.body.fields.map (annotateField graphs r), f.Legible := by
    rw [List.forall_mem_map]
    exact fun f hf => hwritable.annotateField (ht.body.fields f hf)
  have hbody := ht.body
  -- only objects and interfaces change, both in the same way
  split
  · rename_i b hb
    rw [hb] at hbody hfields
    exact { ht with directives := hdirectives, body := { hbody with fields := hfields } }
  · rename_i b hb
    rw [hb] at hbody hfields
    exact { ht with directives := hdirectives, body := { hbody with fields := hfields } }
  all_goals exact ht

/-! ## The document -/

/-- The schema definition names root types in the order of the operations. -/
theorem legible_schemaDefinition {s : Schema} (h : ∀ t ∈ s.types, t.Legible) :
    (schemaDefinition s).Legible where
  description := nofun
  directives := by
    show ∀ x ∈ [application "core" [("feature", .string coreFeature)],
      application "core" [("feature", .string joinFeature), ("for", .enum "EXECUTION")]], x.Legible
    decide
  rootOperations := by
    intro r hr
    obtain ⟨operation, -, hr⟩ := List.mem_filterMap.mp hr
    obtain ⟨root, hroot, rfl⟩ := Option.map_eq_some_iff.mp hr
    exact (h root (List.mem_of_find?_eq_some hroot)).name
  inOrder := by
    cases hquery : s.rootType? .query <;> cases hmutation : s.rootType? .mutation <;>
      cases hsubscription : s.rootType? .subscription <;>
      simp [schemaDefinition, Grammar.firstRoots, OperationType.all, hquery, hmutation,
        hsubscription]

theorem legible_directiveDefinitions : ∀ d ∈ directiveDefinitions, d.Legible := by
  decide

theorem legible_purposeDefinition : purposeDefinition.Legible := by
  decide

theorem legible_fieldSetDefinition : fieldSetDefinition.Legible := by
  decide

theorem legible_graphDefinition (h : ∀ g ∈ graphs, g.Legible) :
    (graphDefinition graphs).Legible := by
  have hvalues : ∀ v ∈ (graphDefinition graphs).body.enumValues, v.Legible := by
    refine List.forall_mem_map.mpr fun g hg => ?_
    refine ⟨(h g hg).value, nofun, fun x hx => ?_⟩
    rw [List.mem_singleton.mp hx]
    have hservice := Value.legible_string (h g hg).service
    have hurl := Value.legible_string (h g hg).url
    exact legible_application (by decide)
      (List.forall_mem_cons.mpr
        ⟨legible_argument (by decide) hservice,
          List.forall_mem_singleton.mpr (legible_argument (by decide) hurl)⟩)
  exact
    { name := by show isName graphType = true; decide
      description := nofun
      directives := nofun
      body :=
        { implements := nofun
          members := nofun
          fields := nofun
          enumValues := hvalues
          inputFields := nofun } }

/-- **The document of a legible schema is legible**, where the graphs and the records can be
written. -/
theorem legible_annotated {s : Schema} (htypes : ∀ t ∈ s.types, t.Legible)
    (hdirectives : ∀ d ∈ s.directiveDefinitions, d.Legible) (hgraphs : ∀ g ∈ graphs, g.Legible)
    (hrecords : ∀ t ∈ s.types, ∀ r, s.ownership? t.name = some r → Writable graphs r) :
    (annotated s graphs).Legible where
  ne_nil := List.cons_ne_nil _ _
  definitions := by
    intro x hx
    simp only [annotated, List.cons_append, List.mem_cons, List.mem_append, List.mem_map,
      List.not_mem_nil, or_false] at hx
    rcases hx with rfl | ((⟨d, hd, rfl⟩ | rfl | rfl | rfl) | ⟨d, hd, rfl⟩) | ⟨t, ht, rfl⟩
    · exact legible_schemaDefinition htypes
    · exact legible_directiveDefinitions d hd
    · exact legible_purposeDefinition
    · exact legible_fieldSetDefinition
    · exact legible_graphDefinition hgraphs
    · exact hdirectives d hd
    · exact legible_annotate (htypes t ht) (hrecords t ht)

end Supergraph

/-! ## Services -/

/-- A service whose name is not empty and, as its address, without characters above U+FFFF. -/
structure Subgraph.IsNamedPlainly (g : Subgraph) : Prop where
  ne_empty : g.name ≠ ""
  name : InBasicPlane g.name
  url : ∀ url ∈ g.url, InBasicPlane url

namespace Subgraphs

open Supergraph

variable {s : Subgraphs}

/-- **Services with plain names and addresses have legible graphs.** -/
theorem legible_graphs (h : ∀ g ∈ s.services, g.IsNamedPlainly) :
    ∀ g ∈ s.graphs, g.Legible := by
  intro graph hgraph
  obtain hnone | ⟨g, hg, hservice, hurl, n, hvalue⟩ := Graph.exists_of_mem_foldl hgraph
  · cases hnone
  have hmem : g ∈ s.services := by
    rwa [map_fst_byName, mem_inOrder] at hg
  have hplain := h g hmem
  refine ⟨(Graph.isValueName_of_mem_candidates hplain.ne_empty hvalue).legible, ?_, ?_⟩
  · rw [hservice]
    exact hplain.name
  · rw [hurl]
    cases haddress : g.url with
    | none => exact nofun
    | some url => exact hplain.url url haddress

/-- The graph of a service is a legible value. -/
theorem legible_graphValue (h : ∀ g ∈ s.graphs, g.Legible) {service : String}
    (hservice : ∃ g ∈ s.services, g.name = service) :
    (graphValue s.graphs service).Legible := by
  obtain ⟨g, hg, rfl⟩ := hservice
  obtain ⟨graph, hgraph, -, hfind⟩ := exists_graph hg
  rw [graphValue, hfind]
  exact Value.legible_enum (h graph hgraph).value

/-- **The record of a type can be written**: it holds services and field sets that were read. -/
theorem writable_ownership (h : ∀ g ∈ s.graphs, g.Legible) (typeName : String) :
    Writable s.graphs (s.group typeName).ownership where
  owner service hservice := legible_graphValue h (of_owner? hservice)
  keys key hkey := by
    obtain ⟨hservice, hparse⟩ := of_mem_keys hkey
    exact ⟨legible_graphValue h hservice,
      FieldSet.inBasicPlane_text (FieldSet.legible_of_parse hparse)⟩
  contributions f hf c hc := by
    -- a contribution is that of a declaration of the field, whatever the kind of the type
    have hgroup : ∃ ds ∈ (s.group typeName).fieldGroups, TypeGroup.fieldOwnership ds = f := by
      rw [TypeGroup.ownership] at hf
      dsimp only at hf
      split at hf
      case h_1 | h_2 => exact List.mem_map.mp hf
      all_goals cases hf
    obtain ⟨ds, hds, rfl⟩ := hgroup
    obtain ⟨d, hd, rfl⟩ := List.mem_map.mp hc
    obtain ⟨n, -, rfl⟩ := List.mem_map.mp hds
    have hmem := (List.mem_filter.mp ((Declared.firstPerService_sublist _).subset hd)).1
    obtain ⟨hservice, hrequires, hprovides⟩ := of_mem_contributions hmem
    refine ⟨legible_graphValue h hservice, fun fields hfields => ?_, fun fields hfields => ?_⟩
    · exact FieldSet.inBasicPlane_text (FieldSet.legible_of_parse (hrequires fields hfields))
    · exact FieldSet.inBasicPlane_text (FieldSet.legible_of_parse (hprovides fields hfields))

end Subgraphs

end Federation
