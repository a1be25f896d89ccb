import DocPipeline.Library.Schemas

/-!
# Histories of a schema

A schema is taken down by a few commands besides the statements that build it
up. The order in which objects were created never matters: schemas with the
same objects answer every command alike. Defaults matter to whether a command is
allowed, but not to the rows. What a list of commands does to the rows of a
table is a relation on rows that each command satisfies.
-/

set_option autoImplicit false

namespace RelationalSchema

section Commands

variable {T C N L : Type} [DecidableEq T] [DecidableEq C] [DecidableEq N] [DecidableEq L]

inductive Command (T C N L : Type) where
  | statement (st : Statement T C N L)
  | dropTable (t : T)
  | createSequence (t : T) (name : C)
  | setNextval (t : T) (name : C)

def Command.alter : Command T C N L → Schema T C N L → Option (Schema T C N L)
  | .statement st, s => st.alter s
  | .dropTable t, s =>
      if s.hasTable t ∧ s.foreignKeys.all (fun k => k.refTable = t → k.table = t) then
        some { s with
          columns := s.columns.filter (·.table ≠ t)
          uniques := s.uniques.filter (·.table ≠ t)
          foreignKeys := s.foreignKeys.filter (·.table ≠ t)
          sequences := s.sequences.filter (·.1 ≠ t) }
      else none
  | .createSequence t name, s =>
      -- a sequence counts in eight bytes where no type is given
      if s.hasColumn t name ∧ s.sequences.any (·.1 = t) = false then
        some { s with sequences := s.sequences++[(t,.bigint)] }
      else none
  | .setNextval t name, s =>
      if s.hasColumn t name ∧ s.sequences.any (·.1 = t) then
        some (s.mapColumn t name (fun c => { c with default := some .nextval }))
      else none

def Command.rewrite : Command T C N L → Schema T C N L → Rows T C L → Rows T C L
  | .statement st, s, d => st.rewrite s d
  | .dropTable t, _, d => Function.update d t []
  | .createSequence .., _, d | .setNextval .., _, d => d

def Command.Accepts : Command T C N L → Schema T C N L → Rows T C L → Prop
  | .statement st, s, d => st.Accepts s d
  | .dropTable .., _, _ | .createSequence .., _, _ | .setNextval .., _, _ => True

instance : ∀ (c : Command T C N L) (s : Schema T C N L) (d : Rows T C L), Decidable (c.Accepts s d)
  | .statement st, s, d => inferInstanceAs (Decidable (st.Accepts s d))
  | .dropTable .., _, _ | .createSequence .., _, _ | .setNextval .., _, _ =>
      inferInstanceAs (Decidable True)

def Command.exec (c : Command T C N L) (x : Schema T C N L × Rows T C L) :
    Except Failure (Schema T C N L × Rows T C L) :=
  match c.alter x.1 with
  | none => .error .invalid
  | some s => if c.Accepts s (c.rewrite x.1 x.2) then .ok (s,c.rewrite x.1 x.2)
      else .error .violation

def perform : List (Command T C N L) → Schema T C N L × Rows T C L →
    Except Failure (Schema T C N L × Rows T C L)
  | [], x => .ok x
  | c::cs, x => (c.exec x).bind (perform cs)

def alterEach : List (Command T C N L) → Schema T C N L → Option (Schema T C N L)
  | [], s => some s
  | c::cs, s => (c.alter s).bind (alterEach cs)

variable {s s' : Schema T C N L} {d d' : Rows T C L} {c : Command T C N L}
variable {cs cs' : List (Command T C N L)}

theorem perform_append (x : Schema T C N L × Rows T C L) :
    perform (cs++cs') x = (perform cs x).bind (perform cs') := by
  induction cs generalizing x with
  | nil => rfl
  | cons c cs ih =>
    simp only [List.cons_append, perform]
    cases c.exec x with
    | error e => rfl
    | ok y => exact ih y

theorem perform_statements (sts : List (Statement T C N L)) (x : Schema T C N L × Rows T C L) :
    perform (sts.map .statement) x = run sts x := by
  induction sts generalizing x with
  | nil => rfl
  | cons st sts ih =>
    have hexec : (Command.statement st).exec x = st.exec x := rfl
    rw [List.map_cons, perform, run, hexec]
    cases st.exec x with
    | error e => rfl
    | ok y => exact ih y

theorem alterEach_statements (sts : List (Statement T C N L)) (s : Schema T C N L) :
    alterEach (sts.map .statement) s = alterAll sts s := by
  induction sts generalizing s with
  | nil => rfl
  | cons st sts ih =>
    have halter : (Command.statement st).alter s = st.alter s := rfl
    rw [List.map_cons, alterEach, alterAll, halter]
    cases st.alter s with
    | none => rfl
    | some s' => exact ih s'

theorem alterEach_append (s : Schema T C N L) :
    alterEach (cs++cs') s = (alterEach cs s).bind (alterEach cs') := by
  induction cs generalizing s with
  | nil => rfl
  | cons c cs ih =>
    simp only [List.cons_append, alterEach]
    cases c.alter s with
    | none => rfl
    | some s' => exact ih s'

theorem Command.exec_of_accepts (ha : c.alter s = some s') (hr : c.Accepts s' (c.rewrite s d)) :
    c.exec (s,d) = .ok (s',c.rewrite s d) := by
  simp only [exec, ha, if_pos hr]

theorem Command.exec_ok {x y : Schema T C N L × Rows T C L} (h : c.exec x = .ok y) :
    c.alter x.1 = some y.1 ∧ c.Accepts y.1 (c.rewrite x.1 x.2) ∧ y.2 = c.rewrite x.1 x.2 := by
  unfold exec at h
  split at h
  · cases h
  · rename_i s ha
    split at h
    · rename_i hr
      cases h
      exact ⟨ha,hr,rfl⟩
    · cases h

theorem perform_cons_ok {x y : Schema T C N L × Rows T C L} (h : perform (c::cs) x = .ok y) :
    ∃ z, c.exec x = .ok z ∧ perform cs z = .ok y := by
  rw [perform] at h
  cases hz : c.exec x with
  | error e =>
    rw [hz] at h
    cases h
  | ok z =>
    rw [hz] at h
    exact ⟨z,rfl,h⟩

theorem alterEach_of_perform {x y : Schema T C N L × Rows T C L} (h : perform cs x = .ok y) :
    alterEach cs x.1 = some y.1 := by
  induction cs generalizing x with
  | nil =>
    cases h
    rfl
  | cons c cs ih =>
    obtain ⟨z,hz,h⟩ := perform_cons_ok h
    rw [alterEach, (Command.exec_ok hz).1]
    exact ih h

theorem admits_dropTable (h : Admits s d) {t : T}
    (ha : (Command.dropTable t).alter s = some s') : Admits s' (Function.update d t []) := by
  rw [Command.alter, Option.ite_none_right_eq_some] at ha
  obtain ⟨⟨-,hkeys⟩,ha⟩ := ha
  cases ha
  simp only [List.all_eq_true, decide_eq_true_eq] at hkeys
  refine ⟨fun t' ht' => ?_,fun c hc => ?_,fun u hu => ?_,fun k hk => ?_⟩
  · by_cases he : t' = t
    · rw [he, Function.update_self]
    · rw [Function.update_of_ne he]
      refine h.tables t' (hasTable_false.mpr fun c hc hct => ?_)
      refine hasTable_false.mp ht' c (List.mem_filter.mpr ⟨hc,?_⟩) hct
      simpa [hct] using he
  · obtain ⟨hc,hne⟩ := List.mem_filter.mp hc
    rw [Column.Holds, Function.update_of_ne (by simpa using hne)]
    exact h.columns c hc
  · obtain ⟨hu,hne⟩ := List.mem_filter.mp hu
    rw [Unique.Holds, Function.update_of_ne (by simpa using hne)]
    exact h.uniques u hu
  · obtain ⟨hk,hne⟩ := List.mem_filter.mp hk
    have hne : k.table ≠ t := by simpa using hne
    rw [ForeignKey.Holds, Function.update_of_ne hne,
      Function.update_of_ne (fun hr => hne (hkeys k hk hr))]
    exact h.foreignKeys k hk

theorem Command.admits_alter (h : Admits s d) (ha : c.alter s = some s')
    (hr : c.Accepts s' (c.rewrite s d)) : Admits s' (c.rewrite s d) := by
  cases c with
  | statement st => exact RelationalSchema.admits_alter st h ha hr
  | dropTable t => exact admits_dropTable h ha
  | createSequence t name =>
    rw [alter, Option.ite_none_right_eq_some] at ha
    obtain ⟨-,ha⟩ := ha
    cases ha
    exact ⟨h.tables,h.columns,h.uniques,h.foreignKeys⟩
  | setNextval t name =>
    rw [alter, Option.ite_none_right_eq_some] at ha
    obtain ⟨-,ha⟩ := ha
    cases ha
    exact admits_mapColumn h t name _ (fun _ => rfl) (fun _ => id)

theorem admits_perform {x y : Schema T C N L × Rows T C L} (h : Admits x.1 x.2)
    (hrun : perform cs x = .ok y) : Admits y.1 y.2 := by
  induction cs generalizing x with
  | nil =>
    cases hrun
    exact h
  | cons c cs ih =>
    obtain ⟨z,hz,hrun⟩ := perform_cons_ok hrun
    obtain ⟨ha,hr,hd⟩ := Command.exec_ok hz
    exact ih (hd ▸ Command.admits_alter h ha hr) hrun

end Commands

section Order

variable {T C N L : Type} [DecidableEq T] [DecidableEq C] [DecidableEq N] [DecidableEq L]

/-- The same objects, perhaps created in another order. -/
structure Schema.Same (s s' : Schema T C N L) : Prop where
  types : s.types.Perm s'.types
  columns : s.columns.Perm s'.columns
  uniques : s.uniques.Perm s'.uniques
  foreignKeys : s.foreignKeys.Perm s'.foreignKeys
  sequences : s.sequences.Perm s'.sequences

instance (s s' : Schema T C N L) : Decidable (s.Same s') :=
  decidable_of_iff (s.types.Perm s'.types ∧ s.columns.Perm s'.columns ∧ s.uniques.Perm s'.uniques ∧
    s.foreignKeys.Perm s'.foreignKeys ∧ s.sequences.Perm s'.sequences)
    ⟨fun h => ⟨h.1,h.2.1,h.2.2.1,h.2.2.2.1,h.2.2.2.2⟩,fun h => ⟨h.1,h.2,h.3,h.4,h.5⟩⟩

namespace Schema.Same

variable {s s' s'' : Schema T C N L}

omit [DecidableEq T] [DecidableEq C] [DecidableEq N] [DecidableEq L] in
theorem refl (s : Schema T C N L) : s.Same s := ⟨.rfl,.rfl,.rfl,.rfl,.rfl⟩

omit [DecidableEq T] [DecidableEq C] [DecidableEq N] [DecidableEq L] in
theorem symm (h : s.Same s') : s'.Same s :=
  ⟨h.types.symm,h.columns.symm,h.uniques.symm,h.foreignKeys.symm,h.sequences.symm⟩

omit [DecidableEq T] [DecidableEq C] [DecidableEq N] [DecidableEq L] in
theorem trans (h : s.Same s') (h' : s'.Same s'') : s.Same s'' :=
  ⟨h.types.trans h'.types,h.columns.trans h'.columns,h.uniques.trans h'.uniques,
    h.foreignKeys.trans h'.foreignKeys,h.sequences.trans h'.sequences⟩

omit [DecidableEq C] [DecidableEq N] [DecidableEq L] in
theorem hasTable (h : s.Same s') (t : T) : s.hasTable t = s'.hasTable t := h.columns.any_eq

omit [DecidableEq N] [DecidableEq L] in
theorem hasColumn (h : s.Same s') (t : T) (name : C) : s.hasColumn t name = s'.hasColumn t name :=
  h.columns.any_eq

omit [DecidableEq T] [DecidableEq C] [DecidableEq L] in
theorem hasName (h : s.Same s') (name : N) : s.hasName name = s'.hasName name := by
  rw [Schema.hasName, Schema.hasName, h.uniques.any_eq, h.foreignKeys.any_eq]

omit [DecidableEq N] [DecidableEq L] in
theorem hasKey (h : s.Same s') (k : ForeignKey T C N) : s.hasKey k = s'.hasKey k := h.uniques.any_eq

omit [DecidableEq T] [DecidableEq C] [DecidableEq L] in
theorem usesType (h : s.Same s') (name : N) : s.usesType name = s'.usesType name := h.columns.any_eq

omit [DecidableEq N] [DecidableEq L] in
theorem mapColumn (h : s.Same s') (t : T) (name : C) (f : Column T C N L → Column T C N L) :
    (s.mapColumn t name f).Same (s'.mapColumn t name f) :=
  ⟨h.types,h.columns.map _,h.uniques,h.foreignKeys,h.sequences⟩

end Schema.Same

omit [DecidableEq C] [DecidableEq N] [DecidableEq L] in
theorem mem_referencing {s : Schema T C N L} {ts : List T} {t : T} :
    t ∈ s.referencing ts ↔ t ∈ ts ∨ ∃ k ∈ s.foreignKeys, k.refTable ∈ ts ∧ k.table = t := by
  simp [Schema.referencing, and_assoc]

omit [DecidableEq C] [DecidableEq N] [DecidableEq L] in
/-- `TRUNCATE` empties the same tables whatever order the keys come in. -/
theorem mem_truncated_perm {s s' : Schema T C N L} (h : s.foreignKeys.Perm s'.foreignKeys)
    (ts : List T) (cascade : Bool) (t : T) :
    t ∈ s.truncated ts cascade ↔ t ∈ s'.truncated ts cascade := by
  have hstep : ∀ {us us' : List T}, (∀ x, x ∈ us ↔ x ∈ us') →
      ∀ x, x ∈ s.referencing us ↔ x ∈ s'.referencing us' := by
    intro us us' hus x
    simp only [mem_referencing, hus, h.mem_iff]
  have hiter : ∀ n, ∀ {us us' : List T}, (∀ x, x ∈ us ↔ x ∈ us') →
      ∀ x, x ∈ s.referencing^[n] us ↔ x ∈ s'.referencing^[n] us' := by
    intro n
    induction n with
    | zero => exact fun hus => hus
    | succ n ih => exact fun hus => ih (hstep hus)
  unfold Schema.truncated
  rw [h.length_eq]
  split
  · exact hiter _ (fun _ => Iff.rfl) t
  · rfl

omit [DecidableEq T] [DecidableEq C] [DecidableEq N] [DecidableEq L] in
theorem rel_ite {s s' : Schema T C N L} {p q : Prop} [Decidable p] [Decidable q] (hpq : p ↔ q)
    (h : s.Same s') : Option.Rel Schema.Same (if p then some s else none) (if q then some s' else none) := by
  by_cases hp : p
  · rw [if_pos hp, if_pos (hpq.mp hp)]
    exact .some h
  · rw [if_neg hp, if_neg (fun hq => hp (hpq.mpr hq))]
    exact .none

theorem Statement.alter_same {s s' : Schema T C N L} (h : s.Same s') (st : Statement T C N L) :
    Option.Rel Schema.Same (st.alter s) (st.alter s') := by
  cases st with
  | createTable t cs us ks =>
    have hnew : ∀ q q' : List (T × SequenceType), q.Perm q' → Schema.Same
        { s with columns := s.columns++cs, uniques := s.uniques++us, foreignKeys := s.foreignKeys++ks,
                 sequences := q }
        { s' with columns := s'.columns++cs, uniques := s'.uniques++us,
                  foreignKeys := s'.foreignKeys++ks, sequences := q' } :=
      fun q q' hq => ⟨h.types,h.columns.append_right _,h.uniques.append_right _,
        h.foreignKeys.append_right _,hq⟩
    have hsequences : List.Perm
        (if cs.any (·.default = some .nextval) then s.sequences++[(t,.integer)] else s.sequences)
        (if cs.any (·.default = some .nextval) then s'.sequences++[(t,.integer)] else s'.sequences) := by
      split
      · exact h.sequences.append_right _
      · exact h.sequences
    have hnew := hnew _ _ hsequences
    exact rel_ite (by rw [h.hasTable, funext hnew.hasKey]) hnew
  | addColumn t name type nullable default =>
    exact rel_ite (by rw [h.hasTable, h.hasColumn])
      ⟨h.types,h.columns.append_right _,h.uniques,h.foreignKeys,h.sequences⟩
  | dropColumn t name =>
    exact rel_ite (by rw [h.hasColumn, h.columns.any_eq, h.foreignKeys.all_eq])
      ⟨h.types,h.columns.filter _,h.uniques.filter _,h.foreignKeys.filter _,h.sequences⟩
  | createUnique u =>
    exact rel_ite (by rw [h.hasName, funext (h.hasColumn u.table)])
      ⟨h.types,h.columns,h.uniques.append_right _,h.foreignKeys,h.sequences⟩
  | addForeignKey k =>
    exact rel_ite (by rw [h.hasName, h.hasColumn, h.hasKey])
      ⟨h.types,h.columns,h.uniques,h.foreignKeys.append_right _,h.sequences⟩
  | drop name ifExists =>
    exact rel_ite (by rw [h.hasName])
      ⟨h.types,h.columns,h.uniques.filter _,h.foreignKeys.filter _,h.sequences⟩
  | truncate ts cascade =>
    have hmem := mem_truncated_perm h.foreignKeys ts cascade
    exact rel_ite (by simp only [List.all_eq_true, hmem, h.foreignKeys.mem_iff]) h
  | update t assign select =>
    exact rel_ite (by simp only [h.hasColumn]) h
  | setDefault t name v =>
    exact rel_ite (by rw [h.hasColumn]) (h.mapColumn t name _)
  | dropDefault t name =>
    exact rel_ite (by rw [h.hasColumn]) (h.mapColumn t name _)
  | alterType t name type convert =>
    exact rel_ite (by rw [h.hasColumn, h.columns.all_eq, h.uniques.all_eq, h.foreignKeys.all_eq])
      (h.mapColumn t name _)
  | createType name ls =>
    simp only [Statement.alter, h.types.any_eq]
    split
    · exact .none
    · exact .some ⟨h.types.append_right _,h.columns,h.uniques,h.foreignKeys,h.sequences⟩
  | dropType name =>
    exact rel_ite (by rw [h.types.any_eq, h.usesType])
      ⟨h.types.filter _,h.columns,h.uniques,h.foreignKeys,h.sequences⟩
  | renameType name name' =>
    exact rel_ite (by rw [h.types.any_eq, h.types.any_eq])
      ⟨h.types.map _,h.columns.map _,h.uniques,h.foreignKeys,h.sequences⟩
  | dropSequence t =>
    simp only [Statement.alter, h.columns.any_eq]
    split
    · exact .none
    · exact .some ⟨h.types,h.columns,h.uniques,h.foreignKeys,h.sequences.filter _⟩

theorem Command.alter_same {s s' : Schema T C N L} (h : s.Same s') (c : Command T C N L) :
    Option.Rel Schema.Same (c.alter s) (c.alter s') := by
  cases c with
  | statement st => exact st.alter_same h
  | dropTable t =>
    exact rel_ite (by rw [h.hasTable, h.foreignKeys.all_eq])
      ⟨h.types,h.columns.filter _,h.uniques.filter _,h.foreignKeys.filter _,h.sequences.filter _⟩
  | createSequence t name =>
    exact rel_ite (by rw [h.hasColumn, h.sequences.any_eq])
      ⟨h.types,h.columns,h.uniques,h.foreignKeys,h.sequences.append_right _⟩
  | setNextval t name =>
    exact rel_ite (by rw [h.hasColumn, h.sequences.any_eq]) (h.mapColumn t name _)

end Order

section Defaults

variable {T C N L : Type} [DecidableEq T] [DecidableEq C] [DecidableEq N] [DecidableEq L]

def Column.undefaulted (c : Column T C N L) : Column T C N L := { c with default := none }

/-- The same types, keys and columns, with any defaults and sequences. -/
structure Schema.Alike (s s' : Schema T C N L) : Prop where
  types : s.types.Perm s'.types
  columns : (s.columns.map Column.undefaulted).Perm (s'.columns.map Column.undefaulted)
  uniques : s.uniques.Perm s'.uniques
  foreignKeys : s.foreignKeys.Perm s'.foreignKeys

instance (s s' : Schema T C N L) : Decidable (s.Alike s') :=
  decidable_of_iff (s.types.Perm s'.types ∧
    (s.columns.map Column.undefaulted).Perm (s'.columns.map Column.undefaulted) ∧
    s.uniques.Perm s'.uniques ∧ s.foreignKeys.Perm s'.foreignKeys)
    ⟨fun h => ⟨h.1,h.2.1,h.2.2.1,h.2.2.2⟩,fun h => ⟨h.1,h.2,h.3,h.4⟩⟩

omit [DecidableEq T] [DecidableEq C] [DecidableEq N] [DecidableEq L] in
theorem Schema.Same.alike {s s' : Schema T C N L} (h : s.Same s') : s.Alike s' :=
  ⟨h.types,h.columns.map _,h.uniques,h.foreignKeys⟩

omit [DecidableEq T] [DecidableEq C] [DecidableEq N] [DecidableEq L] in
theorem Schema.Alike.symm {s s' : Schema T C N L} (h : s.Alike s') : s'.Alike s :=
  ⟨h.types.symm,h.columns.symm,h.uniques.symm,h.foreignKeys.symm⟩

omit [DecidableEq T] [DecidableEq C] [DecidableEq N] [DecidableEq L] in
theorem undefaulted_filter (cs : List (Column T C N L)) {p : Column T C N L → Bool}
    (hp : ∀ c, p c.undefaulted = p c) :
    (cs.filter p).map Column.undefaulted = (cs.map Column.undefaulted).filter p := by
  have hcomp : p ∘ Column.undefaulted = p := funext hp
  rw [List.filter_map, hcomp]

omit [DecidableEq N] [DecidableEq L] in
/-- A change of columns that does not look at defaults. -/
theorem Schema.Alike.mapColumn {s s' : Schema T C N L} (h : s.Alike s') (t : T) (name : C)
    {f g : Column T C N L → Column T C N L}
    (hf : ∀ c, (f c).undefaulted = g c.undefaulted) :
    (s.mapColumn t name f).Alike (s'.mapColumn t name f) := by
  have hmap : ∀ cs : List (Column T C N L),
      (cs.map (fun c => if c.isOneOf t [name] = true then f c else c)).map Column.undefaulted =
        (cs.map Column.undefaulted).map (fun c => if c.isOneOf t [name] = true then g c else c) := by
    intro cs
    rw [List.map_map, List.map_map]
    refine List.map_congr_left (fun c _ => ?_)
    have hone : c.undefaulted.isOneOf t [name] = c.isOneOf t [name] := rfl
    simp only [Function.comp, hone]
    split
    · exact hf c
    · rfl
  refine ⟨h.types,?_,h.uniques,h.foreignKeys⟩
  simp only [Schema.mapColumn, hmap]
  exact h.columns.map _

omit [DecidableEq N] [DecidableEq L] in
theorem Schema.alike_undefaulted (s : Schema T C N L) (t : T) (name : C) :
    s.Alike (s.mapColumn t name Column.undefaulted) := by
  refine ⟨.rfl,?_,.rfl,.rfl⟩
  have hmap : ∀ c : Column T C N L,
      (if c.isOneOf t [name] = true then c.undefaulted else c).undefaulted = c.undefaulted := by
    intro c
    split <;> rfl
  simp only [Schema.mapColumn, List.map_map, Function.comp_def, hmap]
  exact .rfl

omit [DecidableEq T] [DecidableEq C] [DecidableEq N] [DecidableEq L] in
theorem alike_ite {u u' v v' : Schema T C N L} {p q : Prop} [Decidable p] [Decidable q]
    (hv : (if p then some u else none) = some v) (hv' : (if q then some u' else none) = some v')
    (h : u.Alike u') : v.Alike v' := by
  rw [Option.ite_none_right_eq_some] at hv hv'
  cases hv.2
  cases hv'.2
  exact h

theorem Statement.alter_alike {s s' u u' : Schema T C N L} (h : s.Alike s') (st : Statement T C N L)
    (ha : st.alter s = some u) (ha' : st.alter s' = some u') : u.Alike u' := by
  have hadd : ∀ cs : List (Column T C N L), ((s.columns++cs).map Column.undefaulted).Perm
      ((s'.columns++cs).map Column.undefaulted) := by
    intro cs
    rw [List.map_append, List.map_append]
    exact h.columns.append_right _
  cases st with
  | createTable t cs us ks =>
    exact alike_ite ha ha' ⟨h.types,hadd cs,h.uniques.append_right _,h.foreignKeys.append_right _⟩
  | addColumn t name type nullable default =>
    exact alike_ite ha ha' ⟨h.types,hadd _,h.uniques,h.foreignKeys⟩
  | dropColumn t name =>
    refine alike_ite ha ha' ⟨h.types,?_,h.uniques.filter _,h.foreignKeys.filter _⟩
    have hone : ∀ c : Column T C N L, (!c.undefaulted.isOneOf t [name]) = !c.isOneOf t [name] :=
      fun _ => rfl
    rw [undefaulted_filter _ hone, undefaulted_filter _ hone]
    exact h.columns.filter _
  | createUnique u =>
    exact alike_ite ha ha' ⟨h.types,h.columns,h.uniques.append_right _,h.foreignKeys⟩
  | addForeignKey k =>
    exact alike_ite ha ha' ⟨h.types,h.columns,h.uniques,h.foreignKeys.append_right _⟩
  | drop name ifExists =>
    exact alike_ite ha ha' ⟨h.types,h.columns,h.uniques.filter _,h.foreignKeys.filter _⟩
  | truncate ts cascade => exact alike_ite ha ha' h
  | update t assign select => exact alike_ite ha ha' h
  | setDefault t name v => exact alike_ite ha ha' (h.mapColumn t name (g := id) (fun _ => rfl))
  | dropDefault t name => exact alike_ite ha ha' (h.mapColumn t name (g := id) (fun _ => rfl))
  | alterType t name type convert =>
    exact alike_ite ha ha' (h.mapColumn t name (g := fun c => { c with type := type }) (fun _ => rfl))
  | createType name ls =>
    rw [Statement.alter, Option.ite_none_left_eq_some] at ha ha'
    cases ha.2
    cases ha'.2
    exact ⟨h.types.append_right _,h.columns,h.uniques,h.foreignKeys⟩
  | dropType name =>
    exact alike_ite ha ha' ⟨h.types.filter _,h.columns,h.uniques,h.foreignKeys⟩
  | renameType name name' =>
    refine alike_ite ha ha' ⟨h.types.map _,?_,h.uniques,h.foreignKeys⟩
    have hmap : ∀ cs : List (Column T C N L),
        (cs.map (fun c => { c with type := c.type.map (renamed name name') })).map
          Column.undefaulted = (cs.map Column.undefaulted).map
            (fun c => { c with type := c.type.map (renamed name name') }) := by
      intro cs
      rw [List.map_map, List.map_map]
      rfl
    simp only [hmap]
    exact h.columns.map _
  | dropSequence t =>
    rw [Statement.alter, Option.ite_none_left_eq_some] at ha ha'
    cases ha.2
    cases ha'.2
    exact ⟨h.types,h.columns,h.uniques,h.foreignKeys⟩

theorem Command.alter_alike {s s' u u' : Schema T C N L} (h : s.Alike s') (c : Command T C N L)
    (ha : c.alter s = some u) (ha' : c.alter s' = some u') : u.Alike u' := by
  cases c with
  | statement st => exact st.alter_alike h ha ha'
  | dropTable t =>
    refine alike_ite ha ha' ⟨h.types,?_,h.uniques.filter _,h.foreignKeys.filter _⟩
    have hne : ∀ c : Column T C N L, decide (c.undefaulted.table ≠ t) = decide (c.table ≠ t) :=
      fun _ => rfl
    rw [undefaulted_filter _ hne, undefaulted_filter _ hne]
    exact h.columns.filter _
  | createSequence t name => exact alike_ite ha ha' ⟨h.types,h.columns,h.uniques,h.foreignKeys⟩
  | setNextval t name => exact alike_ite ha ha' (h.mapColumn t name (g := id) (fun _ => rfl))

variable {s s' : Schema T C N L} {d : Rows T C L}

omit [DecidableEq T] [DecidableEq C] in
/-- Every column has its like in the other schema, which takes the same values. -/
theorem Schema.Alike.columns_hold (h : s.Alike s') {p : Column T C N L → Prop}
    (hp : ∀ c, p c.undefaulted ↔ p c) (hs : ∀ c ∈ s.columns, p c → c.Holds s.types d) :
    ∀ c ∈ s'.columns, p c → c.Holds s'.types d := by
  intro c' hc' hpc
  have hm : c'.undefaulted ∈ s.columns.map Column.undefaulted :=
    h.columns.mem_iff.mpr (List.mem_map_of_mem hc')
  obtain ⟨c,hc,he⟩ := List.mem_map.mp hm
  have hholds := hs c hc ((hp c).mp (he ▸ (hp c').mpr hpc))
  have hun : ∀ x : Column T C N L, x.Holds s.types d ↔ x.undefaulted.Holds s.types d :=
    fun _ => Iff.rfl
  rw [hun, he, ← hun] at hholds
  intro row hrow
  rw [← fits_perm h.types]
  exact hholds row hrow

omit [DecidableEq C] in
/-- Alike schemas admit the same rows. -/
theorem Schema.Alike.admits (h : s.Alike s') (ha : Admits s d) : Admits s' d where
  tables t ht := by
    refine ha.tables t (hasTable_false.mpr fun c hc hct => ?_)
    have hm := h.columns.mem_iff.mp (List.mem_map_of_mem (f := Column.undefaulted) hc)
    obtain ⟨c',hc',he⟩ := List.mem_map.mp hm
    refine hasTable_false.mp ht c' hc' ?_
    have htable : c'.undefaulted.table = c.undefaulted.table := congrArg Column.table he
    exact htable.trans hct
  columns c hc := h.columns_hold (p := fun _ => True) (fun _ => Iff.rfl)
    (fun c hc _ => ha.columns c hc) c hc trivial
  uniques u hu := ha.uniques u (h.uniques.mem_iff.mpr hu)
  foreignKeys k hk := ha.foreignKeys k (h.foreignKeys.mem_iff.mpr hk)

theorem Schema.Alike.rechecked (h : s.Alike s') {t : T} {names : List C}
    (hr : Rechecked s t names d) : Rechecked s' t names d := by
  refine ⟨fun c hc => ?_,fun u hu => ?_,fun k hk => ?_⟩
  · obtain ⟨hc,hone⟩ := List.mem_filter.mp hc
    exact h.columns_hold (p := fun c => c.isOneOf t names = true) (fun _ => Iff.rfl)
      (fun c hc hone => hr.columns c (List.mem_filter.mpr ⟨hc,hone⟩)) c hc hone
  · exact hr.uniques u ((h.uniques.filter _).mem_iff.mpr hu)
  · exact hr.foreignKeys k ((h.foreignKeys.filter _).mem_iff.mpr hk)

theorem Command.accepts_alike (h : s.Alike s') (c : Command T C N L) (hr : c.Accepts s d) :
    c.Accepts s' d := by
  cases c with
  | statement st =>
    cases st with
    | addColumn t name type nullable default => exact h.rechecked hr
    | update t assign select => exact h.rechecked hr
    | alterType t name type convert => exact h.rechecked hr
    | _ => exact hr
  | _ => exact hr

omit [DecidableEq N] [DecidableEq L] in
theorem Command.rewrite_alike (h : s.Alike s') (c : Command T C N L) :
    c.rewrite s d = c.rewrite s' d := by
  cases c with
  | statement st =>
    cases st with
    | truncate ts cascade =>
      funext t
      simp only [Command.rewrite, Statement.rewrite, mem_truncated_perm h.foreignKeys ts cascade t]
    | _ => rfl
  | _ => rfl

variable {c : Command T C N L} {cs : List (Command T C N L)}

/-- What a run on one schema does to the rows, a run on a schema like it does
as well, if its defaults allow the commands. -/
theorem Schema.Alike.perform {u v : Schema T C N L} {e : Rows T C L} (h : s.Alike s')
    (hrun : perform cs (s,d) = .ok (u,e)) (ha : alterEach cs s' = some v) :
    perform cs (s',d) = .ok (v,e) ∧ u.Alike v := by
  induction cs generalizing s s' d with
  | nil =>
    cases hrun
    cases ha
    exact ⟨rfl,h⟩
  | cons c cs ih =>
    obtain ⟨⟨s₁,d₁⟩,hc,hrun⟩ := perform_cons_ok hrun
    obtain ⟨hc,hr,hd⟩ := Command.exec_ok hc
    rw [alterEach, Option.bind_eq_some_iff] at ha
    obtain ⟨s₂,hc',ha⟩ := ha
    have h₁ := c.alter_alike h hc hc'
    have hr' : c.Accepts s₂ (c.rewrite s d) := c.accepts_alike h₁ hr
    rw [c.rewrite_alike h] at hr'
    obtain rfl : d₁ = c.rewrite s' d := hd.trans (c.rewrite_alike h)
    rw [RelationalSchema.perform, Command.exec_of_accepts hc' hr']
    exact ih h₁ hrun ha

theorem Schema.Same.alterEach {u : Schema T C N L} (h : s.Same s') (ha : alterEach cs s = some u) :
    ∃ v, RelationalSchema.alterEach cs s' = some v ∧ u.Same v := by
  induction cs generalizing s s' with
  | nil =>
    cases ha
    exact ⟨s',rfl,h⟩
  | cons c cs ih =>
    rw [RelationalSchema.alterEach, Option.bind_eq_some_iff] at ha
    obtain ⟨s₁,hc,ha⟩ := ha
    have hrel := c.alter_same h
    rw [hc] at hrel
    cases hc' : c.alter s' with
    | none =>
      rw [hc'] at hrel
      cases hrel
    | some s₂ =>
      rw [hc'] at hrel
      cases hrel with
      | some hs =>
        obtain ⟨v,hv,hsame⟩ := ih hs ha
        exact ⟨v,by rw [RelationalSchema.alterEach, hc', Option.bind_some, hv],hsame⟩

/-- The order in which the objects of a schema were created makes no
difference to a run. -/
theorem Schema.Same.perform {u : Schema T C N L} {e : Rows T C L} (h : s.Same s')
    (hrun : perform cs (s,d) = .ok (u,e)) :
    ∃ v, perform cs (s',d) = .ok (v,e) ∧ u.Same v := by
  obtain ⟨v,hv,hsame⟩ := h.alterEach (alterEach_of_perform hrun)
  exact ⟨v,(h.alike.perform hrun hv).1,hsame⟩

end Defaults

section Rows

variable {T C N L : Type} [DecidableEq T] [DecidableEq C]

def Statement.onRow (t : T) : Statement T C N L → Row C L → Row C L
  | .addColumn t' name _ _ default, row =>
      if t = t' then Function.update row name (default.getD .null) else row
  | .update t' assign select, row => if t = t' ∧ select row then assigned assign row else row
  | .alterType t' name _ convert, row =>
      if t = t' then Function.update row name (convert row) else row
  | _, row => row

def Command.onRow (t : T) : Command T C N L → Row C L → Row C L
  | .statement st, row => st.onRow t row
  | .dropTable _, row | .createSequence .., row | .setNextval .., row => row

def Command.empties (s : Schema T C N L) (t : T) : Command T C N L → Bool
  | .statement (.truncate ts cascade) => t ∈ s.truncated ts cascade
  | .dropTable t' => t = t'
  | _ => false

omit [DecidableEq C] in
theorem mapRows_table {t t' : T} {g h : Row C L → Row C L} {d : Rows T C L}
    (hg : t = t' → ∀ row, h row = g row) (hne : t ≠ t' → ∀ row, h row = row) :
    mapRows t' g d t = (d t).map h := by
  by_cases ht : t = t'
  · subst ht
    rw [mapRows_self]
    exact List.map_congr_left (fun row _ => (hg rfl row).symm)
  · rw [mapRows_of_ne ht]
    exact (List.map_id'' (hne ht) _).symm

theorem Command.rewrite_table (c : Command T C N L) (s : Schema T C N L) (d : Rows T C L) (t : T) :
    c.rewrite s d t = if c.empties s t = true then [] else (d t).map (c.onRow t) := by
  cases c with
  | statement st =>
    cases st with
    | addColumn t' name type nullable default =>
      exact mapRows_table (fun ht row => if_pos ht) (fun ht row => if_neg ht)
    | update t' assign select =>
      refine mapRows_table (fun ht row => ?_) (fun ht row => if_neg (fun h => ht h.1))
      simp only [Command.onRow, Statement.onRow, ht, true_and]
    | alterType t' name type convert =>
      exact mapRows_table (fun ht row => if_pos ht) (fun ht row => if_neg ht)
    | truncate ts cascade =>
      simp only [Command.rewrite, Statement.rewrite, Command.empties, decide_eq_true_eq]
      split
      · rfl
      · exact (List.map_id'' (fun _ => rfl) _).symm
    | _ => exact (List.map_id'' (fun _ => rfl) _).symm
  | dropTable t' =>
    simp only [Command.rewrite, Command.empties, decide_eq_true_eq]
    split
    · rename_i ht
      rw [ht, Function.update_self]
    · rename_i ht
      rw [Function.update_of_ne ht]
      exact (List.map_id'' (fun _ => rfl) _).symm
  | _ => exact (List.map_id'' (fun _ => rfl) _).symm

theorem Command.rewrite_empty {c : Command T C N L} {s : Schema T C N L} {d : Rows T C L} {t : T}
    (h : d t = []) : c.rewrite s d t = [] := by
  rw [rewrite_table, h, List.map_nil, ite_self]

variable [DecidableEq N] [DecidableEq L]

def emptiesAny (t : T) : List (Command T C N L) → Schema T C N L → Bool
  | [], _ => false
  | c::cs, s => c.empties s t || (c.alter s).any (emptiesAny t cs)

variable {cs : List (Command T C N L)} {x y : Schema T C N L × Rows T C L} {t : T}

theorem perform_empty (hrun : perform cs x = .ok y) (h : x.2 t = []) : y.2 t = [] := by
  induction cs generalizing x with
  | nil =>
    cases hrun
    exact h
  | cons c cs ih =>
    obtain ⟨z,hz,hrun⟩ := perform_cons_ok hrun
    refine ih hrun ?_
    rw [(Command.exec_ok hz).2.2]
    exact Command.rewrite_empty h

theorem perform_emptied (hrun : perform cs x = .ok y) (h : emptiesAny t cs x.1 = true) :
    y.2 t = [] := by
  induction cs generalizing x with
  | nil => cases h
  | cons c cs ih =>
    obtain ⟨z,hz,hrun⟩ := perform_cons_ok hrun
    obtain ⟨ha,-,hd⟩ := Command.exec_ok hz
    rw [emptiesAny, ha, Option.any_some, Bool.or_eq_true] at h
    rcases h with h | h
    · refine perform_empty hrun ?_
      rw [hd, Command.rewrite_table, if_pos h]
    · exact ih hrun h

/-- Rows that no command removes are changed only as the commands change a
single row. -/
theorem perform_kept {R : Row C L → Row C L → Prop} (hrefl : ∀ row, R row row)
    (htrans : ∀ a b c, R a b → R b c → R a c) (hcs : ∀ c ∈ cs, ∀ row, R row (c.onRow t row))
    (hrun : perform cs x = .ok y) (h : emptiesAny t cs x.1 = false) :
    List.Forall₂ R (x.2 t) (y.2 t) := by
  induction cs generalizing x with
  | nil =>
    cases hrun
    exact List.forall₂_same.mpr (fun row _ => hrefl row)
  | cons c cs ih =>
    obtain ⟨z,hz,hrun⟩ := perform_cons_ok hrun
    obtain ⟨ha,-,hd⟩ := Command.exec_ok hz
    rw [emptiesAny, ha, Option.any_some, Bool.or_eq_false_iff] at h
    have hrest := ih (fun c hc => hcs c (List.mem_cons_of_mem _ hc)) hrun h.2
    rw [hd, Command.rewrite_table, if_neg (by simp [h.1]), List.forall₂_map_left_iff] at hrest
    exact hrest.imp (fun a b hab => htrans _ _ _ (hcs c List.mem_cons_self a) hab)

def Command.edits (t : T) : Command T C N L → Bool
  | .statement (.addColumn t' ..) => t = t'
  | .statement (.update t' ..) => t = t'
  | .statement (.alterType t' ..) => t = t'
  | _ => false

omit [DecidableEq N] [DecidableEq L] in
theorem Command.onRow_of_not_edits {c : Command T C N L} (h : c.edits t = false) (row : Row C L) :
    c.onRow t row = row := by
  cases c with
  | statement st =>
    cases st with
    | addColumn => exact if_neg (of_decide_eq_false h)
    | update => exact if_neg (fun hc => of_decide_eq_false h hc.1)
    | alterType => exact if_neg (of_decide_eq_false h)
    | _ => rfl
  | _ => rfl

omit [DecidableEq N] [DecidableEq L] in
/-- Only the commands that edit rows of the table count. -/
theorem onRow_of_edits {R : Row C L → Row C L → Prop} (hrefl : ∀ row, R row row)
    (h : ∀ c ∈ cs.filter (·.edits t), ∀ row, R row (c.onRow t row)) :
    ∀ c ∈ cs, ∀ row, R row (c.onRow t row) := by
  intro c hc row
  cases he : c.edits t with
  | true => exact h c (List.mem_filter.mpr ⟨hc,he⟩) row
  | false =>
    rw [Command.onRow_of_not_edits he]
    exact hrefl row

omit [DecidableEq T] [DecidableEq C] [DecidableEq N] [DecidableEq L] in
theorem forall₂_trans {R : Row C L → Row C L → Prop} (htrans : ∀ a b c, R a b → R b c → R a c)
    {l l' l'' : List (Row C L)} (h : List.Forall₂ R l l') (h' : List.Forall₂ R l' l'') :
    List.Forall₂ R l l'' := by
  induction h generalizing l'' with
  | nil =>
    cases h'
    exact .nil
  | cons hab _ ih =>
    cases h' with
    | cons hbc h' => exact .cons (htrans _ _ _ hab hbc) (ih h')

omit [DecidableEq T] [DecidableEq C] [DecidableEq N] [DecidableEq L] in
/-- A constraint on pairs of rows that the change of a row respects. -/
theorem pairwise_kept {R P : Row C L → Row C L → Prop} {l l' : List (Row C L)}
    (h : List.Forall₂ R l l') (hP : ∀ a a' b b', R a a' → R b b' → (P a b ↔ P a' b')) :
    l.Pairwise P ↔ l'.Pairwise P := by
  have hall : ∀ {a a' : Row C L} {l l' : List (Row C L)}, R a a' → List.Forall₂ R l l' →
      ((∀ b ∈ l, P a b) ↔ ∀ b ∈ l', P a' b) := by
    intro a a' l l' ha h
    induction h with
    | nil => simp
    | cons hb _ ih => rw [List.forall_mem_cons, List.forall_mem_cons, ih, hP _ _ _ _ ha hb]
  induction h with
  | nil => simp
  | cons ha h ih =>
    rw [List.pairwise_cons, List.pairwise_cons]
    exact and_congr (hall ha h) ih

def Command.checksOnly (ts : List T) : Command T C N L → Bool
  | .statement st => st.checksOnly ts
  | .dropTable _ | .createSequence .. | .setNextval .. => true

variable {s s' : Schema T C N L} {d : Rows T C L} {ts : List T}

theorem Command.accepts_of_empty {c : Command T C N L} (h : c.checksOnly ts = true)
    (hd : ∀ t ∈ ts, d t = []) (ha : c.alter s = some s') : c.Accepts s' d := by
  cases c with
  | statement st => exact RelationalSchema.accepts_of_empty h hd ha
  | _ => trivial

/-- Nothing can go wrong on empty tables. -/
theorem perform_of_empty (h : cs.all (Command.checksOnly ts) = true) (hd : ∀ t ∈ ts, d t = [])
    (ha : alterEach cs s = some s') : ∃ d', perform cs (s,d) = .ok (s',d') := by
  induction cs generalizing s d with
  | nil =>
    cases ha
    exact ⟨d,rfl⟩
  | cons c cs ih =>
    simp only [List.all_cons, Bool.and_eq_true] at h
    rw [alterEach, Option.bind_eq_some_iff] at ha
    obtain ⟨s₁,ha,hb⟩ := ha
    have hd' : ∀ t ∈ ts, c.rewrite s d t = [] := fun t ht => Command.rewrite_empty (hd t ht)
    obtain ⟨d',hrun⟩ := ih h.2 hd' hb
    refine ⟨d',?_⟩
    rw [perform, Command.exec_of_accepts ha (Command.accepts_of_empty h.1 hd' ha)]
    exact hrun

/-- Commands that check nothing of rows. -/
theorem perform_of_unchecked (h : cs.all (Command.checksOnly []) = true)
    (ha : alterEach cs s = some s') : ∃ d', perform cs (s,d) = .ok (s',d') :=
  perform_of_empty h (fun _ ht => absurd ht List.not_mem_nil) ha

theorem perform_unchecked_append {cs' : List (Command T C N L)}
    (h : cs.all (Command.checksOnly []) = true) (ha : alterEach (cs++cs') s = some s')
    (hcs' : ∀ s₁, alterEach cs' s₁ = some s' → ∀ d₁, ∃ d', perform cs' (s₁,d₁) = .ok (s',d')) :
    ∃ d', perform (cs++cs') (s,d) = .ok (s',d') := by
  rw [alterEach_append, Option.bind_eq_some_iff] at ha
  obtain ⟨s₁,ha,hb⟩ := ha
  obtain ⟨d₁,hrun⟩ := perform_of_unchecked (d := d) h ha
  obtain ⟨d',hrun'⟩ := hcs' s₁ hb d₁
  refine ⟨d',?_⟩
  rw [perform_append, hrun]
  exact hrun'

theorem perform_truncate {cascade : Bool} {cs' : List (Command T C N L)}
    (hcs : cs = .statement (.truncate ts cascade)::cs')
    (h : cs'.all (Command.checksOnly ts) = true) (ha : alterEach cs s = some s') :
    ∃ d', perform cs (s,d) = .ok (s',d') := by
  subst hcs
  rw [alterEach, Option.bind_eq_some_iff] at ha
  obtain ⟨s₁,ha,hb⟩ := ha
  obtain ⟨d',hrun⟩ := perform_of_empty (d := (Statement.truncate ts cascade).rewrite s d) h
    (fun t ht => if_pos (mem_truncated cascade ht)) hb
  refine ⟨d',?_⟩
  rw [perform, Command.exec_of_accepts ha trivial]
  exact hrun

end Rows

end RelationalSchema
