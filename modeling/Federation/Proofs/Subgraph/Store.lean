import Federation.Proofs.Sequence
import Federation.Subgraph.Basic
/-!
# Subgraphs — what the store holds

The tables of the store refer to one another by ranks, numbers and
places. Nothing that is entered changes what was entered before it
(`Extends`), and every entry keeps the references right (`Linked`). So
after a run of entries the store holds what was entered, in order
(`Holds`), and following the index gives for each type the definitions
that have its name (`groups?_eq`).
-/

namespace Federation

/-! ## The index -/

namespace IndexEntry

variable {a b e x : IndexEntry} {es : List IndexEntry}

instance : Std.TransCmp order :=
  inferInstanceAs (Std.TransCmp (compareLex (compareOn IndexEntry.name) _))

theorem order_eq_lt_iff : order a b = .lt ↔
    a.name < b.name ∨ a.name = b.name ∧
      (a.service < b.service ∨ a.service = b.service ∧ a.definition < b.definition) := by
  have hname : compare a.name b.name = .lt ↔ a.name < b.name := compareOfLessAndEq_eq_lt
  simp only [order, compareLex, compareOn, Ordering.then_eq_lt, hname, Std.compare_eq_lt,
    Std.compare_eq_iff_eq]

theorem eq_of_order_eq (h : order a b = .eq) : a = b := by
  simp only [order, compareLex, compareOn, Ordering.then_eq_eq, Std.compare_eq_iff_eq] at h
  obtain ⟨hname, hservice, hdefinition⟩ := h
  cases a
  cases b
  simp only at hname hservice hdefinition
  rw [hname, hservice, hdefinition]

/-- Entries are in the order of the index. -/
def Ordered (es : List IndexEntry) : Prop :=
  es.Pairwise fun a b => order a b = .lt

theorem mem_insertInto : x ∈ insertInto e es ↔ x = e ∨ x ∈ es := by
  induction es with
  | nil => simp [insertInto]
  | cons y es ih =>
    rw [insertInto]
    split
    · rw [List.mem_cons]
    · rename_i heq
      rw [eq_of_order_eq heq, List.mem_cons]
      exact or_self_left.symm
    · rw [List.mem_cons, ih, List.mem_cons]
      exact or_left_comm

theorem Ordered.insertInto (h : Ordered es) (e : IndexEntry) : Ordered (insertInto e es) := by
  induction es with
  | nil => exact List.pairwise_singleton _ _
  | cons y es ih =>
    obtain ⟨hy, hes⟩ := List.pairwise_cons.mp h
    rw [IndexEntry.insertInto]
    split
    · rename_i hlt
      refine List.pairwise_cons.mpr ⟨fun z hz => ?_, h⟩
      rcases List.mem_cons.mp hz with rfl | hz
      · exact hlt
      · exact Std.TransCmp.lt_trans hlt (hy z hz)
    · exact h
    · rename_i hgt
      refine List.pairwise_cons.mpr ⟨fun z hz => ?_, ih hes⟩
      rcases mem_insertInto.mp hz with rfl | hz
      · exact Std.OrientedCmp.gt_iff_lt.mp hgt
      · exact hy z hz

theorem order_self_ne_lt (e : IndexEntry) : order e e ≠ .lt := by
  intro hlt
  have heq : order e e = .eq := Std.ReflCmp.compare_self
  rw [hlt] at heq
  cases heq

theorem Ordered.nodup (h : Ordered es) : es.Nodup := by
  refine h.imp ?_
  rintro a b hab rfl
  exact order_self_ne_lt a hab

/-- Ordered entries are settled by which entries there are. -/
theorem Ordered.eq_of_mem_iff {fs : List IndexEntry} (hes : Ordered es) (hfs : Ordered fs)
    (h : ∀ e, e ∈ es ↔ e ∈ fs) : es = fs := by
  refine List.Perm.eq_of_pairwise (fun a b _ _ hab hba => ?_) hes hfs
    ((List.perm_ext_iff_of_nodup hes.nodup hfs.nodup).mpr h)
  exact absurd (Std.TransCmp.lt_trans hab hba) (order_self_ne_lt a)

end IndexEntry

/-! ## Reading from the tables -/

/-- Where every look-up succeeds, a list of look-ups does. -/
theorem mapM_eq_some_map {α β : Type} {f : α → Option β} {g : α → β} {as : List α}
    (h : ∀ a ∈ as, f a = some (g a)) : as.mapM f = some (as.map g) := by
  induction as with
  | nil => rfl
  | cons a as ih =>
    obtain ⟨ha, has⟩ := List.forall_mem_cons.mp h
    rw [List.mapM_cons, ha, ih has]
    rfl

/-- A list of look-ups that succeeds does so where more look-ups succeed. -/
theorem mapM_mono {α β : Type} {f f' : α → Option β} (hf : ∀ a b, f a = some b → f' a = some b)
    {as : List α} {bs : List β} (h : as.mapM f = some bs) : as.mapM f' = some bs := by
  induction as generalizing bs with
  | nil => exact h
  | cons a as ih =>
    rw [List.mapM_cons] at h ⊢
    simp only [Option.bind_eq_bind, Option.bind_eq_some_iff, Option.pure_def, Option.some.injEq]
      at h ⊢
    obtain ⟨b, hb, cs, hcs, hbs⟩ := h
    exact ⟨b, hf a b hb, cs, ih hcs, hbs⟩

/-- Where a list has the values of consecutive look-ups, they give the list. -/
theorem mapM_range'_eq_some {β : Type} {f : Nat → Option β} {start : Nat} {bs : List β}
    (h : ∀ (i : Nat) (b : β), bs[i]? = some b → f (start + i) = some b) :
    (List.range' start bs.length).mapM f = some bs := by
  induction bs generalizing start with
  | nil => rfl
  | cons b bs ih =>
    have hrest : (List.range' (start + 1) bs.length).mapM f = some bs := ih fun i c hc => by
      rw [Nat.add_assoc, Nat.add_comm 1 i]
      exact h (i + 1) c hc
    have hfirst : f start = some b := h 0 b rfl
    rw [List.length_cons, List.range'_succ, List.mapM_cons, hfirst, hrest]
    rfl

/-! ## A list at the end of a table -/

theorem size_append_list {α : Type} (as : Array α) (bs : List α) :
    (as ++ bs).size = as.size + bs.length := by
  rw [← Array.length_toList, Array.toList_appendList, List.length_append, Array.length_toList]

theorem getElem?_append_list {α : Type} (as : Array α) (bs : List α) (i : Nat) :
    (as ++ bs)[i]? = if i < as.size then as[i]? else bs[i - as.size]? := by
  rw [← Array.getElem?_toList, Array.toList_appendList, List.getElem?_append, Array.length_toList,
    Array.getElem?_toList]

namespace Store

variable {t u : Store} {name : String} {service number : Nat} {d : Declaration}
variable {held : List (Declared Declaration)}

/-- A store has everything that another one has, at the same places. -/
structure Extends (u t : Store) : Prop where
  services : ∀ (rank : Nat) (name : String),
    t.services[rank]? = some name → u.services[rank]? = some name
  definitions : ∀ (number : Nat) (d : StoredDefinition),
    t.definitions[number]? = some d → u.definitions[number]? = some d
  fields : ∀ (place : Nat) (f : StoredField),
    t.fields[place]? = some f → u.fields[place]? = some f

/-- The tables of a store refer to one another: a definition to a service, the fields at its places to
it and no others, every field to some definition, and the index to every definition under its name. -/
structure Linked (t : Store) : Prop where
  service : ∀ (number : Nat) (d : StoredDefinition),
    t.definitions[number]? = some d → d.service < t.services.size
  places : ∀ (number : Nat) (d : StoredDefinition), t.definitions[number]? = some d →
    ∀ place : Nat, (d.fieldsFrom ≤ place ∧ place < d.fieldsTo) ↔
      ∃ f : StoredField, t.fields[place]? = some f ∧ f.definition = number
  owner : ∀ (place : Nat) (f : StoredField),
    t.fields[place]? = some f → f.definition < t.definitions.size
  ordered : IndexEntry.Ordered t.index
  mem_index : ∀ e : IndexEntry, e ∈ t.index ↔
    ∃ d : StoredDefinition, t.definitions[e.definition]? = some d ∧
      e.name = d.node.name ∧ e.service = d.service

/-- A store holds what services declare: the definitions, read back by their numbers. -/
structure Holds (t : Store) (held : List (Declared Declaration)) : Prop where
  size : t.definitions.size = held.length
  declaration : ∀ (number : Nat) (d : Declared Declaration),
    held[number]? = some d → t.declaration? number = some d

theorem linked_empty : ({} : Store).Linked where
  service _ _ h := nomatch h
  places _ _ h := nomatch h
  owner _ _ h := nomatch h
  ordered := List.Pairwise.nil
  mem_index e := by
    rw [iff_false_left List.not_mem_nil]
    rintro ⟨d, hd, -⟩
    exact nomatch hd

theorem holds_empty : ({} : Store).Holds [] where
  size := rfl
  declaration _ _ h := nomatch h

theorem declaration?_eq_some_iff {x : Declared Declaration} : t.declaration? number = some x ↔
    ∃ d, t.definitions[number]? = some d ∧ ∃ service, t.services[d.service]? = some service ∧
      ∃ fields, t.fieldsAt? (List.range' d.fieldsFrom (d.fieldsTo - d.fieldsFrom)) = some fields ∧
        (⟨d.service, service, ⟨d.node, d.isExtension, d.root, d.keys, fields⟩⟩ :
          Declared Declaration) = x := by
  simp only [declaration?, Option.bind_eq_bind, Option.bind_eq_some_iff, Option.pure_def,
    Option.some.injEq]

/-- What can be read from a store can be read from one that extends it. -/
theorem Extends.declaration? (h : u.Extends t) {x : Declared Declaration}
    (hx : t.declaration? number = some x) : u.declaration? number = some x := by
  obtain ⟨d, hd, service, hservice, fields, hfields, rfl⟩ := declaration?_eq_some_iff.mp hx
  refine declaration?_eq_some_iff.mpr ⟨d, h.definitions _ _ hd, service, h.services _ _ hservice,
    fields, mapM_mono (fun place f hf => ?_) hfields, rfl⟩
  obtain ⟨g, hg, rfl⟩ := Option.map_eq_some_iff.mp hf
  exact Option.map_eq_some_iff.mpr ⟨g, h.fields _ _ hg, rfl⟩

/-! ## One more service -/

theorem extends_pushService (t : Store) (name : String) : (t.pushService name).Extends t where
  services rank other h := by
    have hlt := (Array.getElem?_eq_some_iff.mp h).1
    rw [pushService, Array.getElem?_push, if_neg (by omega), h]
  definitions _ _ h := h
  fields _ _ h := h

theorem Linked.pushService (h : t.Linked) (name : String) : (t.pushService name).Linked where
  service number d hd := by
    have := h.service number d hd
    rw [Store.pushService, Array.size_push]
    omega
  places := h.places
  owner := h.owner
  ordered := h.ordered
  mem_index := h.mem_index

theorem Holds.pushService (h : t.Holds held) (name : String) : (t.pushService name).Holds held where
  size := h.size
  declaration number d hd := (extends_pushService t name).declaration? (h.declaration number d hd)

/-! ## One more definition -/

/-- The row of a definition at the end of the tables. -/
def rowOf (t : Store) (service : Nat) (d : Declaration) : StoredDefinition :=
  { service, node := d.node, isExtension := d.isExtension, root := d.root, keys := d.keys
    fieldsFrom := t.fields.size, fieldsTo := t.fields.size + d.fields.length }

@[simp] theorem services_pushDefinition (t : Store) (service : Nat) (d : Declaration) :
    (t.pushDefinition service d).services = t.services := rfl

theorem definitions_pushDefinition (t : Store) (service : Nat) (d : Declaration) :
    (t.pushDefinition service d).definitions = t.definitions.push (t.rowOf service d) := by
  have hsize := size_append_list t.fields (d.fields.map (StoredField.mk t.definitions.size))
  rw [List.length_map] at hsize
  rw [pushDefinition, rowOf, hsize]

theorem definition?_pushDefinition (t : Store) (service : Nat) (d : Declaration) (number : Nat) :
    (t.pushDefinition service d).definitions[number]? =
      if number = t.definitions.size then some (t.rowOf service d) else t.definitions[number]? := by
  rw [definitions_pushDefinition, Array.getElem?_push]

theorem field?_pushDefinition (t : Store) (service : Nat) (d : Declaration) (place : Nat) :
    (t.pushDefinition service d).fields[place]? =
      if place < t.fields.size then t.fields[place]?
      else d.fields[place - t.fields.size]?.map (StoredField.mk t.definitions.size) := by
  rw [pushDefinition, getElem?_append_list, List.getElem?_map]

theorem extends_pushDefinition (t : Store) (service : Nat) (d : Declaration) :
    (t.pushDefinition service d).Extends t where
  services _ _ h := h
  definitions number other h := by
    have hlt := (Array.getElem?_eq_some_iff.mp h).1
    rw [definition?_pushDefinition, if_neg (by omega), h]
  fields place f h := by
    have hlt := (Array.getElem?_eq_some_iff.mp h).1
    rw [field?_pushDefinition, if_pos hlt, h]

/-- **One more definition keeps the references right.** Its fields come after those of the
definitions before it, so the places of one definition never take in a field of another. -/
theorem Linked.pushDefinition (h : t.Linked) (hservice : service < t.services.size)
    (d : Declaration) : (t.pushDefinition service d).Linked where
  service number e he := by
    rw [definition?_pushDefinition] at he
    split at he
    · cases he
      exact hservice
    · exact h.service number e he
  places number e he place := by
    rw [definition?_pushDefinition] at he
    rw [field?_pushDefinition]
    split at he
    · rename_i hnew
      cases he
      simp only [rowOf, hnew]
      constructor
      · rintro ⟨hfrom, hto⟩
        have hlt : place - t.fields.size < d.fields.length := by omega
        rw [if_neg (by omega), List.getElem?_eq_getElem hlt]
        exact ⟨_, rfl, rfl⟩
      · rintro ⟨f, hf, howner⟩
        split at hf
        · have := h.owner place f hf
          omega
        · obtain ⟨g, hg, rfl⟩ := Option.map_eq_some_iff.mp hf
          have hlt := (List.getElem?_eq_some_iff.mp hg).1
          omega
    · rename_i hold
      have hplaces := h.places number e he place
      split
      · exact hplaces
      · rename_i hplace
        -- past the fields that were there, no field is one of an earlier definition
        constructor
        · intro hin
          obtain ⟨f, hf, -⟩ := hplaces.mp hin
          exact absurd (Array.getElem?_eq_some_iff.mp hf).1 hplace
        · rintro ⟨f, hf, howner⟩
          obtain ⟨g, -, rfl⟩ := Option.map_eq_some_iff.mp hf
          exact absurd howner.symm hold
  owner place f hf := by
    rw [field?_pushDefinition] at hf
    rw [definitions_pushDefinition, Array.size_push]
    split at hf
    · have := h.owner place f hf
      omega
    · obtain ⟨g, -, rfl⟩ := Option.map_eq_some_iff.mp hf
      exact Nat.lt_succ_self _
  ordered := h.ordered.insertInto _
  mem_index e := by
    rw [definition?_pushDefinition, Store.pushDefinition, IndexEntry.mem_insertInto, h.mem_index]
    split
    · rename_i hnew
      constructor
      · rintro (rfl | ⟨x, hx, -, -⟩)
        · exact ⟨_, rfl, rfl, rfl⟩
        · have := (Array.getElem?_eq_some_iff.mp hx).1
          omega
      · rintro ⟨_, ⟨⟩, hname, hrank⟩
        left
        cases e
        simp only at hnew hname hrank
        rw [hnew, hname, hrank, rowOf, Declaration.name]
    · rename_i hold
      refine or_iff_right ?_
      rintro rfl
      exact hold rfl

/-- The fields of a definition can be read back once it is entered. -/
theorem fieldsAt?_pushDefinition (t : Store) (service : Nat) (d : Declaration) :
    (t.pushDefinition service d).fieldsAt? (List.range' t.fields.size d.fields.length) =
      some d.fields := by
  refine mapM_range'_eq_some fun i f hf => ?_
  rw [field?_pushDefinition, if_neg (by omega), Nat.add_sub_cancel_left, hf]
  rfl

/-- **One more definition is held** after those that were. -/
theorem Holds.pushDefinition (h : t.Holds held) (hservice : t.services[service]? = some name)
    (d : Declaration) :
    (t.pushDefinition service d).Holds (held ++ [⟨service, name, d⟩]) where
  size := by
    rw [definitions_pushDefinition, Array.size_push, h.size, List.length_append,
      List.length_singleton]
  declaration number e he := by
    rw [List.getElem?_append] at he
    split at he
    · exact (extends_pushDefinition t service d).declaration? (h.declaration number e he)
    · rename_i hlast
      have hlt := (List.getElem?_eq_some_iff.mp he).1
      rw [List.length_singleton] at hlt
      have hnumber : number = t.definitions.size := by
        rw [h.size]
        omega
      have hzero : number - held.length = 0 := by omega
      rw [hzero] at he
      cases he
      refine declaration?_eq_some_iff.mpr ⟨t.rowOf service d, ?_, name, hservice, d.fields, ?_, rfl⟩
      · rw [definition?_pushDefinition, if_pos hnumber]
      · rw [rowOf, Nat.add_sub_cancel_left]
        exact fieldsAt?_pushDefinition t service d

/-! ## One more service with its definitions -/

theorem services_foldl_pushDefinition (t : Store) (service : Nat) (ds : List Declaration) :
    (ds.foldl (fun u d => u.pushDefinition service d) t).services = t.services := by
  induction ds generalizing t with
  | nil => rfl
  | cons d ds ih => rw [List.foldl_cons, ih, services_pushDefinition]

theorem services_ingest (t : Store) (name : String) (ds : List Declaration) :
    (t.ingest name ds).services = t.services.push name := by
  rw [ingest, services_foldl_pushDefinition, pushService]

theorem Linked.ingest (h : t.Linked) (name : String) (ds : List Declaration) :
    (t.ingest name ds).Linked := by
  have hrun : ∀ u : Store, u.Linked → t.services.size < u.services.size →
      (ds.foldl (fun u d => u.pushDefinition t.services.size d) u).Linked := by
    induction ds with
    | nil => exact fun u hu _ => hu
    | cons d ds ih => exact fun u hu hlt => ih _ (hu.pushDefinition hlt d) hlt
  refine hrun _ (h.pushService name) ?_
  rw [Store.pushService, Array.size_push]
  exact Nat.lt_succ_self _

theorem Holds.ingest (h : t.Holds held) (name : String) (ds : List Declaration) :
    (t.ingest name ds).Holds (held ++ ds.map fun d => ⟨t.services.size, name, d⟩) := by
  have hrun : ∀ (u : Store) (before : List (Declared Declaration)), u.Holds before →
      u.services[t.services.size]? = some name →
      (ds.foldl (fun u d => u.pushDefinition t.services.size d) u).Holds
        (before ++ ds.map fun d => ⟨t.services.size, name, d⟩) := by
    induction ds with
    | nil =>
      intro u before hu _
      rwa [List.map_nil, List.append_nil]
    | cons d ds ih =>
      intro u before hu hservice
      rw [List.foldl_cons, List.map_cons, List.append_cons]
      exact ih _ _ (hu.pushDefinition hservice d) hservice
  refine hrun _ held (h.pushService name) ?_
  rw [Store.pushService, Array.getElem?_push_size]

/-! ## Following the index -/

/-- The entry of a definition that is held under a number. -/
def entryOf (p : Declared Declaration × Nat) : IndexEntry :=
  { name := p.1.node.node.name, service := p.1.rank, definition := p.2 }

theorem Holds.definition? (h : t.Holds held) (number : Nat) :
    (t.definitions[number]?.map fun d => (d.node.name, d.service)) =
      held[number]?.map fun d => (d.node.node.name, d.rank) := by
  cases hd : held[number]? with
  | none =>
    rw [List.getElem?_eq_none_iff, ← h.size, ← Array.getElem?_eq_none_iff] at hd
    rw [hd]
    rfl
  | some d =>
    obtain ⟨e, he, _, -, _, -, rfl⟩ := declaration?_eq_some_iff.mp (h.declaration number d hd)
    rw [he]
    rfl

/-- The index has the entries of the definitions that are held. -/
theorem mem_index_iff (hl : t.Linked) (hh : t.Holds held) (e : IndexEntry) :
    e ∈ t.index ↔ e ∈ held.zipIdx.map entryOf := by
  have hentry := hh.definition? e.definition
  rw [hl.mem_index, List.mem_map]
  constructor
  · rintro ⟨d, hd, hname, hrank⟩
    rw [hd] at hentry
    obtain ⟨x, hx, heq⟩ := Option.map_eq_some_iff.mp hentry.symm
    refine ⟨(x, e.definition), List.mem_zipIdx_iff_getElem?.mpr hx, ?_⟩
    cases e
    simp only at hname hrank
    rw [entryOf, hname, hrank, (Prod.mk.inj heq).1, (Prod.mk.inj heq).2]
  · rintro ⟨p, hp, rfl⟩
    rw [entryOf, List.mem_zipIdx_iff_getElem?.mp hp] at hentry
    obtain ⟨d, hd, heq⟩ := Option.map_eq_some_iff.mp hentry
    exact ⟨d, hd, (Prod.mk.inj heq).1.symm, (Prod.mk.inj heq).2.symm⟩

/-- **The index leads to every definition once.** -/
theorem numbers_index (hl : t.Linked) (hh : t.Holds held) :
    (t.index.map (·.definition)).Perm (List.range t.definitions.size) := by
  have hnumbers : (held.zipIdx.map entryOf).map (·.definition) = List.range t.definitions.size := by
    have hsnd := List.zipIdx_map_snd 0 held
    rw [← List.range_eq_range', ← hh.size] at hsnd
    rw [List.map_map, ← hsnd]
    rfl
  have hnodup : (held.zipIdx.map entryOf).Nodup := by
    refine List.Nodup.of_map (·.definition) ?_
    rw [hnumbers]
    exact List.nodup_range
  rw [← hnumbers]
  exact ((List.perm_ext_iff_of_nodup hl.ordered.nodup hnodup).mpr (mem_index_iff hl hh)).map _

/-- The fields at the places of a definition are those that are held for it. -/
theorem Holds.fieldsAt? (h : t.Holds held) {row : StoredDefinition}
    (hrow : t.definitions[number]? = some row) :
    ∃ d ∈ held, d.node.node = row.node ∧
      t.fieldsAt? (List.range' row.fieldsFrom (row.fieldsTo - row.fieldsFrom)) =
        some d.node.fields := by
  have hlt : number < held.length := by
    rw [← h.size]
    exact (Array.getElem?_eq_some_iff.mp hrow).1
  have hheld := List.getElem?_eq_getElem hlt
  obtain ⟨row', hrow', _, -, fields, hfields, heq⟩ :=
    declaration?_eq_some_iff.mp (h.declaration number _ hheld)
  obtain rfl : row = row' := Option.some.inj (hrow.symm.trans hrow')
  refine ⟨held[number], List.getElem_mem hlt, ?_, ?_⟩
  · rw [← heq]
  · rw [← heq, hfields]

/-- Definitions with their numbers: the ranks of the services increase with the numbers. -/
theorem pairwise_zipIdx (hr : held.Pairwise fun a b => a.rank ≤ b.rank) :
    held.zipIdx.Pairwise fun p q => p.1.rank ≤ q.1.rank ∧ p.2 < q.2 := by
  have hheld : (held.zipIdx.map (·.1)).Pairwise fun a b => a.rank ≤ b.rank := by
    rwa [List.zipIdx_map_fst]
  exact (List.pairwise_map.mp hheld).and (pairwise_snd_zipIdx held)

/-- The entries under a name are those of the definitions that have it, in order. -/
theorem filter_index (hl : t.Linked) (hh : t.Holds held)
    (hr : held.Pairwise fun a b => a.rank ≤ b.rank) (typeName : String) :
    (t.index.filter (·.name == typeName)) =
      (held.zipIdx.filter (·.1.node.node.name == typeName)).map entryOf := by
  refine IndexEntry.Ordered.eq_of_mem_iff (hl.ordered.filter _) ?_ fun e => ?_
  · rw [IndexEntry.Ordered, List.pairwise_map]
    refine ((pairwise_zipIdx hr).filter _).imp_of_mem ?_
    rintro p q hp hq ⟨hrank, hnumber⟩
    have hname : p.1.node.node.name = q.1.node.node.name :=
      (beq_iff_eq.mp (List.mem_filter.mp hp).2).trans (beq_iff_eq.mp (List.mem_filter.mp hq).2).symm
    refine IndexEntry.order_eq_lt_iff.mpr (.inr ⟨hname, ?_⟩)
    simp only [entryOf]
    omega
  · rw [List.mem_filter, mem_index_iff hl hh, List.mem_map, List.mem_map]
    constructor
    · rintro ⟨⟨p, hp, rfl⟩, hname⟩
      exact ⟨p, List.mem_filter.mpr ⟨hp, hname⟩, rfl⟩
    · rintro ⟨p, hp, rfl⟩
      exact ⟨⟨p, (List.mem_filter.mp hp).1, rfl⟩, (List.mem_filter.mp hp).2⟩

/-- **Following the index gives the definitions of each name**, by the names of their services. -/
theorem groups?_eq (hl : t.Linked) (hh : t.Holds held)
    (hr : held.Pairwise fun a b => a.rank ≤ b.rank) {names : List String}
    (hnames : names.Pairwise (· < ·))
    (hmem : ∀ typeName, typeName ∈ names ↔ typeName ∈ held.map (·.node.node.name)) :
    t.groups? = some (names.map fun typeName =>
      (held.filter (·.node.node.name == typeName)).mergeSort
        fun a b => Text.stringLe a.service b.service) := by
  have hruns : (t.index.splitBy fun a b => a.name == b.name) =
      names.map fun typeName => t.index.filter (·.name == typeName) := by
    refine splitBy_eq_map_filter IndexEntry.name (hl.ordered.imp fun hab => ?_)
      (hnames.imp fun hlt => ⟨Std.le_of_lt hlt, Std.ne_of_lt hlt⟩) fun typeName => ?_
    · rcases IndexEntry.order_eq_lt_iff.mp hab with hlt | ⟨heq, -⟩
      · exact Std.le_of_lt hlt
      · exact heq ▸ Std.le_refl _
    · rw [hmem, ← List.zipIdx_map_fst 0 held, List.map_map]
      simp only [List.mem_map, mem_index_iff hl hh]
      constructor
      · rintro ⟨p, hp, rfl⟩
        exact ⟨_, ⟨p, hp, rfl⟩, rfl⟩
      · rintro ⟨_, ⟨p, hp, rfl⟩, rfl⟩
        exact ⟨p, hp, rfl⟩
  rw [groups?, hruns, List.mapM_map]
  refine mapM_eq_some_map fun typeName _ => ?_
  -- every entry leads to the definition that it is the entry of
  have hread : (t.index.filter (·.name == typeName)).mapM (fun e => t.declaration? e.definition) =
      some (held.filter (·.node.node.name == typeName)) := by
    rw [filter_index hl hh hr, List.mapM_map, ← List.zipIdx_map_fst 0 held, List.filter_map,
      List.zipIdx_map_fst]
    refine mapM_eq_some_map fun p hp => hh.declaration p.2 p.1 ?_
    exact List.mem_zipIdx_iff_getElem?.mp (List.mem_filter.mp hp).1
  rw [Function.comp_apply, hread]
  rfl

end Store

namespace Subgraphs

variable {α : Type} (s : Subgraphs)

/-! ## The store of services -/

/-- What the services declare, in the order in which the services came. -/
def ranked (f : Subgraph → List α) : List (Declared α) :=
  s.services.zipIdx.flatMap fun p => (f p.1).map fun node => ⟨p.2, p.1.name, node⟩

theorem pairwise_rank_ranked (f : Subgraph → List α) :
    (s.ranked f).Pairwise fun a b => a.rank ≤ b.rank := by
  rw [ranked, List.pairwise_flatMap]
  constructor
  · intro p _
    rw [List.pairwise_map]
    exact List.pairwise_of_forall_mem_list fun _ _ _ _ => Nat.le_refl _
  · refine (pairwise_snd_zipIdx s.services).imp ?_
    rintro p q hlt d hd e he
    obtain ⟨a, -, rfl⟩ := List.mem_map.mp hd
    obtain ⟨b, -, rfl⟩ := List.mem_map.mp he
    exact Nat.le_of_lt hlt

/-- **The references of a store are right**, whatever services were entered. -/
theorem linked_store : s.store.Linked := by
  have hrun : ∀ (gs : List Subgraph) (t : Store), t.Linked →
      (gs.foldl (fun t g => t.ingest g.name g.declarations) t).Linked := by
    intro gs
    induction gs with
    | nil => exact fun t ht => ht
    | cons g gs ih => exact fun t ht => ih _ (ht.ingest g.name g.declarations)
  exact hrun s.services {} Store.linked_empty

/-- **The store holds what the services declare**, in the order in which they came. -/
theorem holds_store : s.store.Holds (s.ranked Subgraph.declarations) := by
  -- the services in the table so far are as many as the rank of the next one
  have hrun : ∀ (gs : List Subgraph) (t : Store) (held : List (Declared Declaration)),
      t.Holds held → (gs.foldl (fun t g => t.ingest g.name g.declarations) t).Holds
        (held ++ (gs.zipIdx t.services.size).flatMap fun p =>
          p.1.declarations.map fun node => ⟨p.2, p.1.name, node⟩) := by
    intro gs
    induction gs with
    | nil =>
      intro t held ht
      rwa [List.zipIdx_nil, List.flatMap_nil, List.append_nil]
    | cons g gs ih =>
      intro t held ht
      have hrest := ih _ _ (ht.ingest g.name g.declarations)
      rw [Store.services_ingest, Array.size_push] at hrest
      rw [List.foldl_cons, List.zipIdx_cons, List.flatMap_cons, ← List.append_assoc]
      exact hrest
  exact hrun s.services {} [] Store.holds_empty

end Subgraphs

end Federation
