import Mathlib

/-!
# Schemas, constraints and the statements that change them

A schema is the catalogue of a database: its types, columns, unique and foreign
keys. Rows are admitted when every constraint in force holds of them. A
statement changes the catalogue and rewrites rows, and is refused when the
catalogue does not allow it or when the rows violate what it has to check; the
checks are the local ones of the statement. They are enough: what was admitted
before an accepted statement is admitted after it.
-/

set_option autoImplicit false

namespace RelationalSchema

inductive Value (L : Type) where
  | null
  | integer (n : ℤ)
  | text (s : String)
  | timestamp (t : ℤ)
  | uuid (u : BitVec 128)
  | label (l : L)
  | labels (ls : List (Option L))
  deriving DecidableEq

inductive ColumnType (N : Type) where
  | integer
  | string
  | timestamp
  | uuid
  | enum (name : N)
  | enumArray (name : N)
  deriving DecidableEq

inductive Default (L : Type) where
  | value (v : Value L)
  | nextval
  deriving DecidableEq

structure Column (T C N L : Type) where
  table : T
  name : C
  type : ColumnType N
  nullable : Bool
  default : Option (Default L)
  deriving DecidableEq

/-- A unique constraint, or a unique index on the rows whose column has one
of the given labels. -/
structure Unique (T C N L : Type) where
  name : N
  table : T
  columns : List C
  only : Option (C × List L)
  deriving DecidableEq

structure ForeignKey (T C N : Type) where
  name : N
  table : T
  column : C
  refTable : T
  refColumn : C
  deriving DecidableEq

inductive SequenceType where
  | integer
  | bigint
  deriving DecidableEq

-- a sequence stands under the table that owns it
structure Schema (T C N L : Type) where
  types : List (N × List L)
  columns : List (Column T C N L)
  uniques : List (Unique T C N L)
  foreignKeys : List (ForeignKey T C N)
  sequences : List (T × SequenceType)
  deriving DecidableEq

abbrev Row (C L : Type) := C → Value L
abbrev Rows (T C L : Type) := T → List (Row C L)

section Rewriting
variable {T C L : Type} [DecidableEq T]

def mapRows (t : T) (g : Row C L → Row C L) (d : Rows T C L) : Rows T C L :=
  fun t' => if t' = t then (d t').map g else d t'

variable {t : T} {g : Row C L → Row C L} {d : Rows T C L}

theorem mapRows_self : mapRows t g d t = (d t).map g := if_pos rfl

theorem mapRows_of_ne {t' : T} (h : t' ≠ t) : mapRows t g d t' = d t' := if_neg h

variable [DecidableEq C]

def assigned (assign : List (C × Value L)) (row : Row C L) : Row C L :=
  assign.foldl (fun row a => Function.update row a.1 a.2) row

theorem assigned_of_not_mem (assign : List (C × Value L)) (row : Row C L) (x : C)
    (h : x ∉ assign.map Prod.fst) : assigned assign row x = row x := by
  induction assign generalizing row with
  | nil => rfl
  | cons a assign ih =>
    rw [List.map_cons, List.mem_cons, not_or] at h
    rw [assigned, List.foldl_cons, ← assigned, ih _ h.2, Function.update_of_ne h.1]

end Rewriting

variable {T C N L : Type} [DecidableEq T] [DecidableEq C] [DecidableEq N] [DecidableEq L]

def Schema.empty : Schema T C N L := ⟨[],[],[],[],[]⟩

section Constraints

def hasLabel (types : List (N × List L)) (name : N) (l : L) : Bool :=
  types.any (fun t => t.1 = name && l ∈ t.2)

/-- The values of a type; integers have four bytes, an element of an array may
be null. -/
def fits (types : List (N × List L)) : ColumnType N → Value L → Bool
  | .integer, .integer n => -2^31 ≤ n && n < 2^31
  | .string, .text _ => true
  | .timestamp, .timestamp _ => true
  | .uuid, .uuid _ => true
  | .enum name, .label l => hasLabel types name l
  | .enumArray name, .labels ls => ls.all (·.all (hasLabel types name))
  | _, _ => false

theorem fits_null (types : List (N × List L))
    (type : ColumnType N) : fits types type .null = false := by
  cases type <;> rfl

theorem fits_perm {types types' : List (N × List L)} (h : types.Perm types') (type : ColumnType N)
    (v : Value L) : fits types type v = fits types' type v := by
  have hlabel : ∀ name, hasLabel types name = hasLabel types' name := fun name =>
    funext fun l => h.any_eq
  cases type <;> cases v <;> simp [fits, hlabel]

def Column.Holds (types : List (N × List L)) (c : Column T C N L) (d : Rows T C L) : Prop :=
  ∀ row ∈ d c.table, row c.name = .null ∧ c.nullable = true ∨ fits types c.type (row c.name) = true

def Unique.covers (u : Unique T C N L) (row : Row C L) : Bool :=
  match u.only with
  | none => true
  | some (c,ls) => ls.any (fun l => row c = .label l)

/-- Keys with a null are never equal. -/
def Unique.Clash (u : Unique T C N L) (a b : Row C L) : Prop :=
  u.covers a = true ∧ u.covers b = true ∧ .null ∉ u.columns.map a ∧ u.columns.map a = u.columns.map b

def Unique.Holds (u : Unique T C N L) (d : Rows T C L) : Prop :=
  (d u.table).Pairwise (fun a b => ¬ u.Clash a b)

def ForeignKey.Holds (k : ForeignKey T C N) (d : Rows T C L) : Prop :=
  ∀ row ∈ d k.table, row k.column = .null ∨ ∃ r ∈ d k.refTable, r k.refColumn = row k.column

def Schema.hasTable (s : Schema T C N L) (t : T) : Bool := s.columns.any (·.table = t)

structure Admits (s : Schema T C N L) (d : Rows T C L) : Prop where
  tables : ∀ t, s.hasTable t = false → d t = []
  columns : ∀ c ∈ s.columns, c.Holds s.types d
  uniques : ∀ u ∈ s.uniques, u.Holds d
  foreignKeys : ∀ k ∈ s.foreignKeys, k.Holds d

instance (types : List (N × List L)) (c : Column T C N L) (d : Rows T C L) :
    Decidable (c.Holds types d) :=
  inferInstanceAs (Decidable (∀ row ∈ d c.table, _))

instance (u : Unique T C N L) (a b : Row C L) : Decidable (u.Clash a b) :=
  inferInstanceAs (Decidable (_ ∧ _ ∧ _ ∧ _))

instance (u : Unique T C N L) (d : Rows T C L) : Decidable (u.Holds d) :=
  inferInstanceAs (Decidable (List.Pairwise _ _))

instance (k : ForeignKey T C N) (d : Rows T C L) : Decidable (k.Holds d) :=
  inferInstanceAs (Decidable (∀ row ∈ d k.table, _))

instance [Fintype T] (s : Schema T C N L) (d : Rows T C L) : Decidable (Admits s d) :=
  decidable_of_iff ((∀ t, s.hasTable t = false → (d t).isEmpty = true) ∧
    (∀ c ∈ s.columns, c.Holds s.types d) ∧ (∀ u ∈ s.uniques, u.Holds d) ∧
    ∀ k ∈ s.foreignKeys, k.Holds d)
    ⟨fun h => ⟨fun t ht => List.isEmpty_iff.mp (h.1 t ht),h.2.1,h.2.2.1,h.2.2.2⟩,
      fun h => ⟨fun t ht => List.isEmpty_iff.mpr (h.1 t ht),h.2,h.3,h.4⟩⟩

end Constraints

section NotNull

def Schema.requires (s : Schema T C N L) (t : T) (x : C) : Bool :=
  s.columns.any (fun c => c.table = t && c.name = x && !c.nullable)

variable {s : Schema T C N L} {d : Rows T C L}

theorem Admits.ne_null (h : Admits s d) {t : T} {x : C} (hx : s.requires t x = true) {row : Row C L}
    (hrow : row ∈ d t) : row x ≠ .null := by
  obtain ⟨c,hc,⟨rfl,rfl⟩,hn⟩ : ∃ c ∈ s.columns, (c.table = t ∧ c.name = x) ∧ c.nullable = false := by
    simpa [Schema.requires] using hx
  intro hnull
  rcases h.columns c hc row hrow with ⟨-,htrue⟩ | hf
  · rw [hn] at htrue
    cases htrue
  · rw [hnull, fits_null] at hf
    cases hf

/-- On columns that are not nullable a unique constraint is plain inequality. -/
theorem Admits.unique_iff (h : Admits s d) (u : Unique T C N L)
    (hx : u.columns.all (s.requires u.table) = true) : u.Holds d ↔ (d u.table).Pairwise
      (fun a b => ¬ (u.covers a = true ∧ u.covers b = true ∧ u.columns.map a = u.columns.map b)) := by
  have hnull : ∀ row ∈ d u.table, .null ∉ u.columns.map row := by
    intro row hrow hm
    obtain ⟨x,hxu,hnull⟩ := List.mem_map.mp hm
    exact h.ne_null (List.all_eq_true.mp hx x hxu) hrow hnull
  constructor
  · intro hu
    exact hu.imp_of_mem (fun ha _ hn hc => hn ⟨hc.1,hc.2.1,hnull _ ha,hc.2.2⟩)
  · intro hu
    exact hu.imp (fun hn hc => hn ⟨hc.1,hc.2.1,hc.2.2.2⟩)

end NotNull

section Reads

def Column.isOneOf (c : Column T C N L) (t : T) (cs : List C) : Bool := c.table = t && c.name ∈ cs

def Unique.reads (u : Unique T C N L) (t : T) (cs : List C) : Bool :=
  u.table = t && (u.columns.any (· ∈ cs) || u.only.any (·.1 ∈ cs))

def ForeignKey.reads (k : ForeignKey T C N) (t : T) (cs : List C) : Bool :=
  (k.table = t && k.column ∈ cs) || (k.refTable = t && k.refColumn ∈ cs)

def Schema.columnsAt (s : Schema T C N L) (t : T) (cs : List C) : List (Column T C N L) :=
  s.columns.filter (·.isOneOf t cs)

def Schema.uniquesAt (s : Schema T C N L) (t : T) (cs : List C) : List (Unique T C N L) :=
  s.uniques.filter (·.reads t cs)

def Schema.foreignKeysAt (s : Schema T C N L) (t : T) (cs : List C) : List (ForeignKey T C N) :=
  s.foreignKeys.filter (·.reads t cs)

structure Rechecked (s : Schema T C N L) (t : T) (cs : List C) (d : Rows T C L) : Prop where
  columns : ∀ c ∈ s.columnsAt t cs, c.Holds s.types d
  uniques : ∀ u ∈ s.uniquesAt t cs, u.Holds d
  foreignKeys : ∀ k ∈ s.foreignKeysAt t cs, k.Holds d

instance (s : Schema T C N L) (t : T) (cs : List C) (d : Rows T C L) :
    Decidable (Rechecked s t cs d) :=
  decidable_of_iff ((∀ c ∈ s.columnsAt t cs, c.Holds s.types d) ∧
    (∀ u ∈ s.uniquesAt t cs, u.Holds d) ∧ ∀ k ∈ s.foreignKeysAt t cs, k.Holds d)
    ⟨fun h => ⟨h.1,h.2.1,h.2.2⟩,fun h => ⟨h.1,h.2,h.3⟩⟩

end Reads

section Statements

inductive Statement (T C N L : Type) where
  | createTable (t : T) (columns : List (Column T C N L)) (uniques : List (Unique T C N L))
      (foreignKeys : List (ForeignKey T C N))
  | addColumn (t : T) (name : C) (type : ColumnType N) (nullable : Bool)
      (default : Option (Value L))
  | dropColumn (t : T) (name : C)
  | createUnique (u : Unique T C N L)
  | addForeignKey (k : ForeignKey T C N)
  | drop (name : N) (ifExists : Bool)
  | truncate (ts : List T) (cascade : Bool)
  | update (t : T) (assign : List (C × Value L)) (select : Row C L → Bool)
  | setDefault (t : T) (name : C) (v : Value L)
  | dropDefault (t : T) (name : C)
  | alterType (t : T) (name : C) (type : ColumnType N) (convert : Row C L → Value L)
  | createType (name : N) (labels : List L)
  | dropType (name : N)
  | renameType (name name' : N)
  | dropSequence (t : T)

def Schema.hasColumn (s : Schema T C N L) (t : T) (name : C) : Bool :=
  s.columns.any (·.isOneOf t [name])

def Schema.hasName (s : Schema T C N L) (name : N) : Bool :=
  s.uniques.any (·.name = name) || s.foreignKeys.any (·.name = name)

def Schema.hasKey (s : Schema T C N L) (k : ForeignKey T C N) : Bool :=
  s.uniques.any (fun u => u.table = k.refTable && u.columns = [k.refColumn] && u.only = none)

def Schema.usesType (s : Schema T C N L) (name : N) : Bool :=
  s.columns.any (fun c => c.type = .enum name || c.type = .enumArray name)

def Schema.mapColumn (s : Schema T C N L) (t : T) (name : C)
    (f : Column T C N L → Column T C N L) : Schema T C N L :=
  { s with columns := s.columns.map (fun c => if c.isOneOf t [name] = true then f c else c) }

def ColumnType.map (f : N → N) : ColumnType N → ColumnType N
  | .enum name => .enum (f name)
  | .enumArray name => .enumArray (f name)
  | .integer => .integer
  | .string => .string
  | .timestamp => .timestamp
  | .uuid => .uuid

def renamed (name name' n : N) : N := if n = name then name' else n

def Schema.referencing (s : Schema T C N L) (ts : List T) : List T :=
  ts++(s.foreignKeys.filter (·.refTable ∈ ts)).map ForeignKey.table

def Schema.truncated (s : Schema T C N L) (ts : List T) (cascade : Bool) : List T :=
  if cascade then s.referencing^[s.foreignKeys.length] ts else ts

/-- The catalogue after a statement; `none` where it does not allow it. -/
def Statement.alter : Statement T C N L → Schema T C N L → Option (Schema T C N L)
  | .createTable t cs us ks, s =>
      let s' := { s with
        columns := s.columns++cs
        uniques := s.uniques++us
        foreignKeys := s.foreignKeys++ks
        sequences := if cs.any (·.default = some .nextval) then s.sequences++[(t,.integer)]
          else s.sequences }
      if s.hasTable t = false ∧ ks.all s'.hasKey ∧ cs.all (·.table = t) ∧ us.all (·.table = t) ∧
        ks.all (·.table = t) then some s' else none
  | .addColumn t name type nullable default, s =>
      if s.hasTable t ∧ s.hasColumn t name = false then
        some { s with columns := s.columns++[⟨t,name,type,nullable,default.map .value⟩] }
      else none
  | .dropColumn t name, s =>
      if s.hasColumn t name ∧ s.columns.any (fun c => c.table = t && c.name ≠ name) ∧
        s.foreignKeys.all (fun k => !(k.refTable = t && k.refColumn = name)) then
        some { s with
          columns := s.columns.filter (!·.isOneOf t [name])
          uniques := s.uniques.filter (!·.reads t [name])
          foreignKeys := s.foreignKeys.filter (!·.reads t [name]) }
      else none
  | .createUnique u, s =>
      if s.hasName u.name = false ∧ u.columns.all (s.hasColumn u.table) then
        some { s with uniques := s.uniques++[u] }
      else none
  | .addForeignKey k, s =>
      if s.hasName k.name = false ∧ s.hasColumn k.table k.column ∧ s.hasKey k then
        some { s with foreignKeys := s.foreignKeys++[k] }
      else none
  | .drop name ifExists, s =>
      if ifExists ∨ s.hasName name then
        some { s with
          uniques := s.uniques.filter (·.name ≠ name)
          foreignKeys := s.foreignKeys.filter (·.name ≠ name) }
      else none
  | .truncate ts cascade, s =>
      if s.foreignKeys.all (fun k => k.refTable ∈ s.truncated ts cascade →
        k.table ∈ s.truncated ts cascade) then some s else none
  | .update t assign _, s => if assign.all (fun a => s.hasColumn t a.1) then some s else none
  | .setDefault t name v, s =>
      if s.hasColumn t name then
        some (s.mapColumn t name (fun c => { c with default := some (.value v) }))
      else none
  | .dropDefault t name, s =>
      if s.hasColumn t name then some (s.mapColumn t name (fun c => { c with default := none }))
      else none
  | .alterType t name type _, s =>
      if s.hasColumn t name ∧ s.columns.all (fun c => c.isOneOf t [name] → c.default = none) ∧
        s.uniques.all (fun u => u.table = t → u.only.all (·.1 ≠ name)) ∧
        s.foreignKeys.all (fun k => !k.reads t [name]) then
        some (s.mapColumn t name (fun c => { c with type := type }))
      else none
  | .createType name ls, s =>
      if s.types.any (·.1 = name) then none else some { s with types := s.types++[(name,ls)] }
  | .dropType name, s =>
      if s.types.any (·.1 = name) ∧ s.usesType name = false then
        some { s with types := s.types.filter (·.1 ≠ name) }
      else none
  | .renameType name name', s =>
      if s.types.any (·.1 = name) ∧ s.types.any (·.1 = name') = false then
        some { s with
          types := s.types.map (fun t => (renamed name name' t.1,t.2))
          columns := s.columns.map (fun c => { c with type := c.type.map (renamed name name') }) }
      else none
  | .dropSequence t, s =>
      if s.columns.any (fun c => c.table = t && c.default = some .nextval) then none
      else some { s with sequences := s.sequences.filter (·.1 ≠ t) }

def Statement.rewrite : Statement T C N L → Schema T C N L → Rows T C L → Rows T C L
  | .addColumn t name _ _ default, _, d =>
      mapRows t (fun row => Function.update row name (default.getD .null)) d
  | .truncate ts cascade, s, d => fun t => if t ∈ s.truncated ts cascade then [] else d t
  | .update t assign select, _, d =>
      mapRows t (fun row => if select row then assigned assign row else row) d
  | .alterType t name _ convert, _, d =>
      mapRows t (fun row => Function.update row name (convert row)) d
  | _, _, d => d

def Statement.Accepts : Statement T C N L → Schema T C N L → Rows T C L → Prop
  | .addColumn t name _ _ _, s, d => Rechecked s t [name] d
  | .createUnique u, _, d => u.Holds d
  | .addForeignKey k, _, d => k.Holds d
  | .update t assign _, s, d => Rechecked s t (assign.map Prod.fst) d
  | .alterType t name _ _, s, d => Rechecked s t [name] d
  | _, _, _ => True

instance : ∀ (st : Statement T C N L) (s : Schema T C N L) (d : Rows T C L),
    Decidable (st.Accepts s d)
  | .addColumn t name _ _ _, s, d => inferInstanceAs (Decidable (Rechecked s t [name] d))
  | .createUnique u, _, d => inferInstanceAs (Decidable (u.Holds d))
  | .addForeignKey k, _, d => inferInstanceAs (Decidable (k.Holds d))
  | .update t assign _, s, d => inferInstanceAs (Decidable (Rechecked s t (assign.map Prod.fst) d))
  | .alterType t name _ _, s, d => inferInstanceAs (Decidable (Rechecked s t [name] d))
  | .createTable .., _, _ | .dropColumn .., _, _ | .drop .., _, _ | .truncate .., _, _
  | .setDefault .., _, _ | .dropDefault .., _, _ | .createType .., _, _ | .dropType .., _, _
  | .renameType .., _, _ | .dropSequence .., _, _ => inferInstanceAs (Decidable True)

inductive Failure where
  | invalid
  | violation
  deriving DecidableEq

def Statement.exec (st : Statement T C N L) (x : Schema T C N L × Rows T C L) :
    Except Failure (Schema T C N L × Rows T C L) :=
  match st.alter x.1 with
  | none => .error .invalid
  | some s => if st.Accepts s (st.rewrite x.1 x.2) then .ok (s,st.rewrite x.1 x.2)
      else .error .violation

def run : List (Statement T C N L) → Schema T C N L × Rows T C L →
    Except Failure (Schema T C N L × Rows T C L)
  | [], x => .ok x
  | st::sts, x => (st.exec x).bind (run sts)

def alterAll : List (Statement T C N L) → Schema T C N L → Option (Schema T C N L)
  | [], s => some s
  | st::sts, s => (st.alter s).bind (alterAll sts)

end Statements

section Frames

variable {t : T} {cs : List C} {g : Row C L → Row C L} {d : Rows T C L}

theorem Column.holds_mapRows (types : List (N × List L)) (c : Column T C N L)
    (hg : ∀ row, ∀ x ∉ cs, g row x = row x) (hr : c.isOneOf t cs = false) :
    c.Holds types (mapRows t g d) ↔ c.Holds types d := by
  by_cases ht : c.table = t
  · have hc : c.name ∉ cs := by simpa [isOneOf, ht] using hr
    simp only [Holds, ht, mapRows_self, List.forall_mem_map, hg _ _ hc]
  · simp only [Holds, mapRows_of_ne ht]

omit [DecidableEq N] in
theorem Unique.holds_mapRows (u : Unique T C N L) (hg : ∀ row, ∀ x ∉ cs, g row x = row x)
    (hr : u.reads t cs = false) : u.Holds (mapRows t g d) ↔ u.Holds d := by
  by_cases ht : u.table = t
  · simp only [reads, ht, decide_true, Bool.true_and, Bool.or_eq_false_iff, List.any_eq_false,
      decide_eq_true_eq] at hr
    have hkey : ∀ row, u.columns.map (g row) = u.columns.map row := fun row =>
      List.map_congr_left (fun x hx => hg row x (hr.1 x hx))
    have hcovers : ∀ row, u.covers (g row) = u.covers row := by
      intro row
      unfold covers
      cases ho : u.only with
      | none => rfl
      | some o =>
        have hx : o.1 ∉ cs := by simpa [ho] using hr.2
        simp only [hg row _ hx]
    simp only [Holds, ht, mapRows_self, List.pairwise_map, Clash, hkey, hcovers]
  · simp only [Holds, mapRows_of_ne ht]

omit [DecidableEq N] [DecidableEq C] in
/-- Rewriting that creates no clash. -/
theorem Unique.Holds.mapRows {u u' : Unique T C N L} (h : u.Holds d) (ht : u.table = t)
    (ht' : u'.table = t) (hg : ∀ a b, u'.Clash (g a) (g b) → u.Clash a b) :
    u'.Holds (mapRows t g d) := by
  rw [Unique.Holds, ht', mapRows_self, List.pairwise_map]
  rw [Unique.Holds, ht] at h
  exact h.imp (fun hn hc => hn (hg _ _ hc))

omit [DecidableEq N] [DecidableEq L] in
theorem ForeignKey.holds_mapRows (k : ForeignKey T C N) (hg : ∀ row, ∀ x ∉ cs, g row x = row x)
    (hr : k.reads t cs = false) : k.Holds (mapRows t g d) ↔ k.Holds d := by
  simp only [reads, Bool.or_eq_false_iff, Bool.and_eq_false_iff, decide_eq_false_iff_not] at hr
  have hto : ∀ v, (∃ r ∈ mapRows t g d k.refTable, r k.refColumn = v) ↔
      ∃ r ∈ d k.refTable, r k.refColumn = v := by
    intro v
    by_cases ht : k.refTable = t
    · have hx : k.refColumn ∉ cs := hr.2.resolve_left (fun h => h ht)
      simp only [ht, mapRows_self, List.mem_map, exists_exists_and_eq_and, hg _ _ hx]
    · rw [mapRows_of_ne ht]
  by_cases ht : k.table = t
  · have hx : k.column ∉ cs := hr.1.resolve_left (fun h => h ht)
    simp only [Holds, hto]
    simp only [ht, mapRows_self, List.forall_mem_map, hg _ _ hx]
  · simp only [Holds, hto, mapRows_of_ne ht]

/-- Constraints that do not look at the rewritten columns need no check. -/
theorem admits_mapRows {s s' : Schema T C N L} (h : Admits s d)
    (htables : ∀ t, s'.hasTable t = false → s.hasTable t = false) (htypes : s'.types = s.types)
    (hcolumns : ∀ c ∈ s'.columns, c.isOneOf t cs = false → c ∈ s.columns)
    (huniques : ∀ u ∈ s'.uniques, u ∈ s.uniques)
    (hkeys : ∀ k ∈ s'.foreignKeys, k ∈ s.foreignKeys) (hg : ∀ row, ∀ x ∉ cs, g row x = row x)
    (hr : Rechecked s' t cs (mapRows t g d)) : Admits s' (mapRows t g d) where
  tables t' ht' := by
    have hd := h.tables t' (htables t' ht')
    by_cases ht : t' = t
    · rw [ht] at hd ⊢
      rw [mapRows_self, hd, List.map_nil]
    · rw [mapRows_of_ne ht, hd]
  columns c hc := by
    cases hone : c.isOneOf t cs with
    | true => exact hr.columns c (List.mem_filter.mpr ⟨hc,hone⟩)
    | false =>
      rw [c.holds_mapRows _ hg hone, htypes]
      exact h.columns c (hcolumns c hc hone)
  uniques u hu := by
    cases hone : u.reads t cs with
    | true => exact hr.uniques u (List.mem_filter.mpr ⟨hu,hone⟩)
    | false => exact (u.holds_mapRows hg hone).mpr (h.uniques u (huniques u hu))
  foreignKeys k hk := by
    cases hone : k.reads t cs with
    | true => exact hr.foreignKeys k (List.mem_filter.mpr ⟨hk,hone⟩)
    | false => exact (k.holds_mapRows hg hone).mpr (h.foreignKeys k (hkeys k hk))

end Frames

section Soundness

variable {s s' : Schema T C N L} {d : Rows T C L}

theorem fits_map {types types' : List (N × List L)} (f : N → N) {type : ColumnType N} {v : Value L}
    (h : ∀ name, type = .enum name ∨ type = .enumArray name →
      ∀ l, hasLabel types name l = true → hasLabel types' (f name) l = true)
    (hv : fits types type v = true) : fits types' (type.map f) v = true := by
  cases type with
  | enum name =>
    cases v with
    | label l => exact h name (Or.inl rfl) l hv
    | _ => exact hv
  | enumArray name =>
    cases v with
    | labels ls =>
      simp only [fits, ColumnType.map, List.all_eq_true, Option.all_eq_true] at hv ⊢
      exact fun x hx l hl => h name (Or.inr rfl) l (hv x hx l hl)
    | _ => exact hv
  | integer | string | timestamp | uuid => cases v <;> exact hv

omit [DecidableEq N] in
theorem map_id_type (type : ColumnType N) : type.map id = type := by
  cases type <;> rfl

omit [DecidableEq C] in
/-- A statement that leaves the rows alone and changes columns one by one. -/
theorem Admits.catalogue (h : Admits s d) (htables : ∀ t, s'.hasTable t = false → s.hasTable t = false)
    (hcolumns : ∀ c' ∈ s'.columns, ∃ c ∈ s.columns, c.Holds s.types d → c'.Holds s'.types d)
    (huniques : ∀ u ∈ s'.uniques, u ∈ s.uniques ∨ u.Holds d)
    (hkeys : ∀ k ∈ s'.foreignKeys, k ∈ s.foreignKeys ∨ k.Holds d) : Admits s' d where
  tables t ht := h.tables t (htables t ht)
  columns c' hc' := by
    obtain ⟨c,hc,hi⟩ := hcolumns c' hc'
    exact hi (h.columns c hc)
  uniques u hu := (huniques u hu).elim (h.uniques u) id
  foreignKeys k hk := (hkeys k hk).elim (h.foreignKeys k) id

omit [DecidableEq N] [DecidableEq L] in
theorem hasTable_mapColumn (t : T) (name : C) {f : Column T C N L → Column T C N L}
    (hf : ∀ c, (f c).table = c.table) (t' : T) : (s.mapColumn t name f).hasTable t' = s.hasTable t' := by
  simp only [Schema.hasTable, Schema.mapColumn, List.any_map]
  congr 1
  funext c
  simp only [Function.comp]
  split
  · rw [hf]
  · rfl

omit [DecidableEq C] [DecidableEq N] [DecidableEq L] in
theorem hasTable_false {t : T} : s.hasTable t = false ↔ ∀ c ∈ s.columns, c.table ≠ t := by
  simp [Schema.hasTable]

theorem admits_createTable (h : Admits s d) {t : T} {cs : List (Column T C N L)}
    {us : List (Unique T C N L)} {ks : List (ForeignKey T C N)}
    (ha : (Statement.createTable t cs us ks).alter s = some s') : Admits s' d := by
  rw [Statement.alter, Option.ite_none_right_eq_some] at ha
  obtain ⟨⟨hnew,-,hcs,hus,hks⟩,ha⟩ := ha
  cases ha
  have hd := h.tables t hnew
  simp only [List.all_eq_true, decide_eq_true_eq] at hcs hus hks
  refine ⟨fun t' ht' => h.tables t' ?_,fun c hc => ?_,fun u hu => ?_,fun k hk => ?_⟩
  · rw [hasTable_false] at ht' ⊢
    exact fun c hc => ht' c (List.mem_append_left _ hc)
  · rcases List.mem_append.mp hc with hc | hc
    · exact h.columns c hc
    · simp [Column.Holds, hcs c hc, hd]
  · rcases List.mem_append.mp hu with hu | hu
    · exact h.uniques u hu
    · simp [Unique.Holds, hus u hu, hd]
  · rcases List.mem_append.mp hk with hk | hk
    · exact h.foreignKeys k hk
    · simp [ForeignKey.Holds, hks k hk, hd]

theorem admits_dropColumn (h : Admits s d) {t : T} {name : C}
    (ha : (Statement.dropColumn t name).alter s = some s') : Admits s' d := by
  rw [Statement.alter, Option.ite_none_right_eq_some] at ha
  obtain ⟨⟨-,hrest,-⟩,ha⟩ := ha
  cases ha
  refine h.catalogue (fun t' ht' => ?_) (fun c hc => ⟨c,List.mem_of_mem_filter hc,id⟩)
    (fun u hu => Or.inl (List.mem_of_mem_filter hu)) (fun k hk => Or.inl (List.mem_of_mem_filter hk))
  rw [hasTable_false] at ht' ⊢
  intro c hc hct
  -- a column of `t'` is left, `c` itself or the one that the statement asks for
  obtain ⟨c',hc',hct',hne⟩ : ∃ c' ∈ s.columns, c'.table = t ∧ c'.name ≠ name := by simpa using hrest
  cases hone : c.isOneOf t [name] with
  | false => exact ht' c (List.mem_filter.mpr ⟨hc,by simp [hone]⟩) hct
  | true =>
    have htt : c.table = t := by simp_all [Column.isOneOf]
    exact ht' c' (List.mem_filter.mpr ⟨hc',by simp [Column.isOneOf, hne]⟩)
      (hct'.trans (htt.symm.trans hct))

theorem admits_mapColumn (h : Admits s d) (t : T) (name : C)
    (f : Column T C N L → Column T C N L) (htable : ∀ c, (f c).table = c.table)
    (hholds : ∀ c, c.Holds s.types d → (f c).Holds s.types d) :
    Admits (s.mapColumn t name f) d := by
  refine h.catalogue (fun t' ht' => by rwa [hasTable_mapColumn t name htable] at ht')
    (fun c' hc' => ?_) (fun u hu => Or.inl hu) (fun k hk => Or.inl hk)
  obtain ⟨c,hc,rfl⟩ := List.mem_map.mp hc'
  refine ⟨c,hc,fun hh => ?_⟩
  split
  · exact hholds c hh
  · exact hh

omit [DecidableEq C] in
/-- Renaming, adding or removing types keeps the rows admitted when every
type in use keeps its labels. -/
theorem admits_retyped (h : Admits s d) (f : N → N) (htypes : ∀ c ∈ s.columns,
      ∀ name, c.type = .enum name ∨ c.type = .enumArray name →
        ∀ l, hasLabel s.types name l = true → hasLabel s'.types (f name) l = true)
    (hcolumns : s'.columns = s.columns.map (fun c => { c with type := c.type.map f }))
    (huniques : s'.uniques = s.uniques) (hkeys : s'.foreignKeys = s.foreignKeys) :
    Admits s' d where
  tables t ht := by
    refine h.tables t ?_
    rw [hasTable_false] at ht ⊢
    intro c hc
    exact ht { c with type := c.type.map f } (hcolumns ▸ List.mem_map.mpr ⟨c,hc,rfl⟩)
  columns c' hc' := by
    rw [hcolumns] at hc'
    obtain ⟨c,hc,rfl⟩ := List.mem_map.mp hc'
    intro row hrow
    exact (h.columns c hc row hrow).imp_right (fits_map f (htypes c hc))
  uniques u hu := h.uniques u (huniques ▸ hu)
  foreignKeys k hk := h.foreignKeys k (hkeys ▸ hk)

theorem admits_truncate (h : Admits s d) {ts : List T} {cascade : Bool}
    (ha : (Statement.truncate ts cascade).alter s = some s') :
    Admits s' ((Statement.truncate ts cascade).rewrite s d) := by
  rw [Statement.alter, Option.ite_none_right_eq_some] at ha
  obtain ⟨hclosed,ha⟩ := ha
  cases ha
  simp only [List.all_eq_true, decide_eq_true_eq] at hclosed
  refine ⟨fun t ht => ?_,fun c hc row hrow => ?_,fun u hu => ?_,fun k hk row hrow => ?_⟩
  · simp [Statement.rewrite, h.tables t ht]
  · simp only [Statement.rewrite] at hrow
    split at hrow
    · cases hrow
    · exact h.columns c hc row hrow
  · simp only [Unique.Holds, Statement.rewrite]
    split
    · exact List.Pairwise.nil
    · exact h.uniques u hu
  · simp only [Statement.rewrite] at hrow ⊢
    split at hrow
    · cases hrow
    · rename_i hk'
      rw [if_neg (fun hr => hk' (hclosed k hk hr))]
      exact h.foreignKeys k hk row hrow

theorem admits_addColumn (h : Admits s d) {t : T} {name : C} {type : ColumnType N}
    {nullable : Bool} {default : Option (Value L)}
    (ha : (Statement.addColumn t name type nullable default).alter s = some s')
    (hr : (Statement.addColumn t name type nullable default).Accepts s'
      ((Statement.addColumn t name type nullable default).rewrite s d)) :
    Admits s' ((Statement.addColumn t name type nullable default).rewrite s d) := by
  rw [Statement.alter, Option.ite_none_right_eq_some] at ha
  obtain ⟨-,ha⟩ := ha
  cases ha
  refine admits_mapRows h (fun t' ht' => ?_) rfl (fun c hc hone => ?_) (fun u hu => hu)
    (fun k hk => hk) (fun row x hx => ?_) hr
  · rw [hasTable_false] at ht' ⊢
    exact fun c hc => ht' c (List.mem_append_left _ hc)
  · rcases List.mem_append.mp hc with hc | hc
    · exact hc
    · obtain rfl := List.mem_singleton.mp hc
      simp [Column.isOneOf] at hone
  · exact Function.update_of_ne (by simpa using hx) _ _

theorem admits_alterType (h : Admits s d) {t : T} {name : C} {type : ColumnType N}
    {convert : Row C L → Value L}
    (ha : (Statement.alterType t name type convert).alter s = some s')
    (hr : (Statement.alterType t name type convert).Accepts s'
      ((Statement.alterType t name type convert).rewrite s d)) :
    Admits s' ((Statement.alterType t name type convert).rewrite s d) := by
  rw [Statement.alter, Option.ite_none_right_eq_some] at ha
  obtain ⟨-,ha⟩ := ha
  cases ha
  refine admits_mapRows h (fun t' ht' => ?_) rfl (fun c' hc' hone => ?_) (fun u hu => hu)
    (fun k hk => hk) (fun row x hx => ?_) hr
  · rwa [hasTable_mapColumn t name (fun _ => by rfl)] at ht'
  · obtain ⟨c,hc,rfl⟩ := List.mem_map.mp hc'
    split at hone
    · rename_i hc'
      exact absurd hc' (by simpa [Column.isOneOf] using hone)
    · rename_i hc'
      rwa [if_neg hc']
  · exact Function.update_of_ne (by simpa using hx) _ _

theorem admits_update (h : Admits s d) {t : T} {assign : List (C × Value L)}
    {select : Row C L → Bool} (ha : (Statement.update t assign select).alter s = some s')
    (hr : (Statement.update t assign select).Accepts s'
      ((Statement.update t assign select).rewrite s d)) :
    Admits s' ((Statement.update t assign select).rewrite s d) := by
  rw [Statement.alter, Option.ite_none_right_eq_some] at ha
  obtain ⟨-,ha⟩ := ha
  cases ha
  refine admits_mapRows h (fun _ => id) rfl (fun c hc _ => hc) (fun u hu => hu) (fun k hk => hk)
    (fun row x hx => ?_) hr
  by_cases hs : select row
  · rw [if_pos hs, assigned_of_not_mem assign row x hx]
  · rw [if_neg hs]

/-- The checks of a statement are enough: the rows it leaves satisfy every
constraint that is in force after it. -/
theorem admits_alter (st : Statement T C N L) (h : Admits s d) (ha : st.alter s = some s')
    (hr : st.Accepts s' (st.rewrite s d)) : Admits s' (st.rewrite s d) := by
  cases st with
  | createTable t cs us ks => exact admits_createTable h ha
  | addColumn t name type nullable default => exact admits_addColumn h ha hr
  | dropColumn t name => exact admits_dropColumn h ha
  | createUnique u =>
    rw [Statement.alter, Option.ite_none_right_eq_some] at ha
    obtain ⟨-,ha⟩ := ha
    cases ha
    refine h.catalogue (fun _ => id) (fun c hc => ⟨c,hc,id⟩) (fun u' hu' => ?_) (fun k => Or.inl)
    rcases List.mem_append.mp hu' with hu' | hu'
    · exact Or.inl hu'
    · exact Or.inr (List.mem_singleton.mp hu' ▸ hr)
  | addForeignKey k =>
    rw [Statement.alter, Option.ite_none_right_eq_some] at ha
    obtain ⟨-,ha⟩ := ha
    cases ha
    refine h.catalogue (fun _ => id) (fun c hc => ⟨c,hc,id⟩) (fun u => Or.inl) (fun k' hk' => ?_)
    rcases List.mem_append.mp hk' with hk' | hk'
    · exact Or.inl hk'
    · exact Or.inr (List.mem_singleton.mp hk' ▸ hr)
  | drop name ifExists =>
    rw [Statement.alter, Option.ite_none_right_eq_some] at ha
    obtain ⟨-,ha⟩ := ha
    cases ha
    exact h.catalogue (fun _ => id) (fun c hc => ⟨c,hc,id⟩)
      (fun u hu => Or.inl (List.mem_of_mem_filter hu))
      (fun k hk => Or.inl (List.mem_of_mem_filter hk))
  | truncate ts cascade => exact admits_truncate h ha
  | update t assign select => exact admits_update h ha hr
  | setDefault t name v =>
    rw [Statement.alter, Option.ite_none_right_eq_some] at ha
    obtain ⟨-,ha⟩ := ha
    cases ha
    exact admits_mapColumn h t name _ (fun _ => rfl) (fun _ => id)
  | dropDefault t name =>
    rw [Statement.alter, Option.ite_none_right_eq_some] at ha
    obtain ⟨-,ha⟩ := ha
    cases ha
    exact admits_mapColumn h t name _ (fun _ => rfl) (fun _ => id)
  | alterType t name type convert => exact admits_alterType h ha hr
  | createType name ls =>
    rw [Statement.alter, Option.ite_none_left_eq_some] at ha
    obtain ⟨-,ha⟩ := ha
    cases ha
    refine admits_retyped h id (fun c _ n _ l hl => ?_) ?_ rfl rfl
    · simp only [hasLabel, List.any_append, Bool.or_eq_true] at hl ⊢
      exact Or.inl hl
    · simp only [map_id_type, List.map_id']
  | dropType name =>
    rw [Statement.alter, Option.ite_none_right_eq_some] at ha
    obtain ⟨⟨-,hunused⟩,ha⟩ := ha
    cases ha
    refine admits_retyped h id (fun c hc n hn l hl => ?_) ?_ rfl rfl
    · simp only [hasLabel, List.any_eq_true, Bool.and_eq_true, decide_eq_true_eq] at hl ⊢
      obtain ⟨ty,hty,hname,hmem⟩ := hl
      refine ⟨ty,List.mem_filter.mpr ⟨hty,?_⟩,hname,hmem⟩
      simp only [Schema.usesType, List.any_eq_false, Bool.or_eq_true, decide_eq_true_eq] at hunused
      have : n ≠ name := by
        rintro rfl
        exact hunused c hc hn
      simpa [hname] using this
    · simp only [map_id_type, List.map_id']
  | renameType name name' =>
    rw [Statement.alter, Option.ite_none_right_eq_some] at ha
    obtain ⟨-,ha⟩ := ha
    cases ha
    refine admits_retyped h (renamed name name') (fun c _ n _ l hl => ?_) rfl rfl rfl
    simp only [hasLabel, List.any_eq_true, Bool.and_eq_true, decide_eq_true_eq] at hl ⊢
    obtain ⟨ty,hty,rfl,hmem⟩ := hl
    exact ⟨_,List.mem_map_of_mem hty,rfl,hmem⟩
  | dropSequence t =>
    rw [Statement.alter, Option.ite_none_left_eq_some] at ha
    obtain ⟨-,ha⟩ := ha
    cases ha
    exact h.catalogue (fun _ => id) (fun c hc => ⟨c,hc,id⟩) (fun u => Or.inl) (fun k => Or.inl)

end Soundness

section Runs

variable {s s' : Schema T C N L} {d d' : Rows T C L} {st : Statement T C N L}
variable {sts sts' : List (Statement T C N L)}

theorem exec_of_accepts (ha : st.alter s = some s') (hr : st.Accepts s' (st.rewrite s d)) :
    st.exec (s,d) = .ok (s',st.rewrite s d) := by
  simp only [Statement.exec, ha, if_pos hr]

theorem run_cons (ha : st.alter s = some s') (hr : st.Accepts s' (st.rewrite s d)) :
    run (st::sts) (s,d) = run sts (s',st.rewrite s d) := by
  rw [run, exec_of_accepts ha hr]
  rfl

theorem run_singleton (ha : st.alter s = some s') (hr : st.Accepts s' (st.rewrite s d)) :
    run [st] (s,d) = .ok (s',st.rewrite s d) := run_cons ha hr

theorem exec_createUnique {u : Unique T C N L} (ha : (Statement.createUnique u).alter s = some s') :
    (Statement.createUnique u).exec (s,d) = if u.Holds d then .ok (s',d) else .error .violation := by
  simp only [Statement.exec, ha]
  rfl

theorem run_createUnique {u : Unique T C N L} (ha : (Statement.createUnique u).alter s = some s')
    (hu : u.Holds d) : run (.createUnique u::sts) (s,d) = run sts (s',d) := by
  rw [run, exec_createUnique ha, if_pos hu]
  rfl

/-- A new column that no key looks at only has to fit its initial value. -/
theorem accepts_addColumn {t : T} {name : C} {type : ColumnType N} {nullable : Bool}
    {default : Option (Value L)} {c : Column T C N L} (hc : s'.columnsAt t [name] = [c])
    (ht : c.table = t) (hn : c.name = name) (hu : s'.uniquesAt t [name] = [])
    (hk : s'.foreignKeysAt t [name] = [])
    (hv : default.getD .null = .null ∧ c.nullable = true ∨
      fits s'.types c.type (default.getD .null) = true) :
    (Statement.addColumn t name type nullable default).Accepts s'
      ((Statement.addColumn t name type nullable default).rewrite s d) := by
  refine ⟨?_,by rw [hu]; exact fun _ hm => absurd hm List.not_mem_nil,
    by rw [hk]; exact fun _ hm => absurd hm List.not_mem_nil⟩
  rw [hc, List.forall_mem_singleton]
  intro row hrow
  rw [ht, Statement.rewrite, mapRows_self, List.mem_map] at hrow
  obtain ⟨x,-,rfl⟩ := hrow
  rw [hn, Function.update_self]
  exact hv

theorem exec_ok {x y : Schema T C N L × Rows T C L} (h : st.exec x = .ok y) :
    st.alter x.1 = some y.1 ∧ st.Accepts y.1 (st.rewrite x.1 x.2) ∧ y.2 = st.rewrite x.1 x.2 := by
  unfold Statement.exec at h
  split at h
  · cases h
  · rename_i s ha
    split at h
    · rename_i hr
      cases h
      exact ⟨ha,hr,rfl⟩
    · cases h

theorem run_append (x : Schema T C N L × Rows T C L) :
    run (sts++sts') x = (run sts x).bind (run sts') := by
  induction sts generalizing x with
  | nil => rfl
  | cons st sts ih =>
    simp only [List.cons_append, run]
    cases st.exec x with
    | error e => rfl
    | ok y => exact ih y

theorem alterAll_append (s : Schema T C N L) :
    alterAll (sts++sts') s = (alterAll sts s).bind (alterAll sts') := by
  induction sts generalizing s with
  | nil => rfl
  | cons st sts ih =>
    simp only [List.cons_append, alterAll]
    cases st.alter s with
    | none => rfl
    | some s' => exact ih s'

theorem alterAll_singleton (st : Statement T C N L) (s : Schema T C N L) :
    alterAll [st] s = st.alter s := by
  rw [alterAll]
  cases st.alter s <;> rfl

/-- The catalogue after a run does not depend on the rows. -/
theorem alterAll_of_run {x y : Schema T C N L × Rows T C L} (h : run sts x = .ok y) :
    alterAll sts x.1 = some y.1 := by
  induction sts generalizing x with
  | nil =>
    cases h
    rfl
  | cons st sts ih =>
    simp only [run] at h
    cases hx : st.exec x with
    | error e =>
      rw [hx] at h
      cases h
    | ok z =>
      rw [hx] at h
      rw [alterAll, (exec_ok hx).1]
      exact ih h

/-- A run that the catalogue allows stops at nothing but a violation. -/
theorem run_error {x : Schema T C N L × Rows T C L} (ha : (alterAll sts x.1).isSome = true)
    {e : Failure} (h : run sts x = .error e) : e = .violation := by
  induction sts generalizing x with
  | nil => cases h
  | cons st sts ih =>
    rw [alterAll] at ha
    simp only [run] at h
    cases hs : st.alter x.1 with
    | none => simp [hs] at ha
    | some s' =>
      rw [hs, Option.bind_some] at ha
      by_cases hr : st.Accepts s' (st.rewrite x.1 x.2)
      · have hx : st.exec x = .ok (s',st.rewrite x.1 x.2) := exec_of_accepts hs hr
        rw [hx] at h
        exact ih ha h
      · have hx : st.exec x = .error .violation := by simp only [Statement.exec, hs, if_neg hr]
        rw [hx] at h
        cases h
        rfl

/-- What was admitted before a run is admitted after it. -/
theorem admits_run {x y : Schema T C N L × Rows T C L} (h : Admits x.1 x.2)
    (hrun : run sts x = .ok y) : Admits y.1 y.2 := by
  induction sts generalizing x with
  | nil =>
    cases hrun
    exact h
  | cons st sts ih =>
    simp only [run] at hrun
    cases hx : st.exec x with
    | error e =>
      rw [hx] at hrun
      cases hrun
    | ok z =>
      rw [hx] at hrun
      obtain ⟨ha,hr,hz⟩ := exec_ok hx
      exact ih (hz ▸ admits_alter st h ha hr) hrun

def Statement.touches (s : Schema T C N L) (t : T) : Statement T C N L → Bool
  | .addColumn t' _ _ _ _ => t' = t
  | .update t' _ _ => t' = t
  | .alterType t' _ _ _ => t' = t
  | .truncate ts cascade => t ∈ s.truncated ts cascade
  | _ => false

def touchesAny (t : T) : List (Statement T C N L) → Schema T C N L → Bool
  | [], _ => false
  | st::sts, s => st.touches s t || (st.alter s).any (touchesAny t sts)

omit [DecidableEq N] [DecidableEq L] in
theorem rewrite_untouched {t : T} (h : st.touches s t = false) : st.rewrite s d t = d t := by
  cases st with
  | addColumn t' _ _ _ _ => exact mapRows_of_ne (by simpa [Statement.touches, eq_comm] using h)
  | update t' _ _ => exact mapRows_of_ne (by simpa [Statement.touches, eq_comm] using h)
  | alterType t' _ _ _ => exact mapRows_of_ne (by simpa [Statement.touches, eq_comm] using h)
  | truncate ts cascade => exact if_neg (by simpa [Statement.touches] using h)
  | _ => rfl

theorem run_untouched {t : T} {x y : Schema T C N L × Rows T C L} (hrun : run sts x = .ok y)
    (h : touchesAny t sts x.1 = false) : y.2 t = x.2 t := by
  induction sts generalizing x with
  | nil =>
    cases hrun
    rfl
  | cons st sts ih =>
    simp only [run] at hrun
    simp only [touchesAny, Bool.or_eq_false_iff] at h
    cases hx : st.exec x with
    | error e =>
      rw [hx] at hrun
      cases hrun
    | ok z =>
      rw [hx] at hrun
      obtain ⟨ha,-,hz⟩ := exec_ok hx
      rw [ha, Option.any_some] at h
      rw [ih hrun h.2, hz, rewrite_untouched h.1]

def Statement.isNeutral : Statement T C N L → Bool
  | .addColumn .. | .createUnique _ | .addForeignKey _ | .truncate .. | .update .. |
    .alterType .. => false
  | _ => true

theorem exec_of_neutral (h : st.isNeutral = true) (ha : st.alter s = some s') :
    st.exec (s,d) = .ok (s',d) := by
  cases st with
  | addColumn | createUnique | addForeignKey | truncate | update | alterType => cases h
  | _ => exact exec_of_accepts ha trivial

theorem run_of_neutral (h : sts.all Statement.isNeutral = true) (ha : alterAll sts s = some s') :
    run sts (s,d) = .ok (s',d) := by
  induction sts generalizing s with
  | nil =>
    cases ha
    rfl
  | cons st sts ih =>
    simp only [List.all_cons, Bool.and_eq_true] at h
    rw [alterAll, Option.bind_eq_some_iff] at ha
    obtain ⟨s'',ha,hb⟩ := ha
    rw [run, exec_of_neutral h.1 ha]
    exact ih h.2 hb

def Statement.checksOnly (ts : List T) : Statement T C N L → Bool
  | .addColumn .. | .update .. => false
  | .createUnique u => u.table ∈ ts
  | .addForeignKey k => k.table ∈ ts
  | .alterType t _ _ _ => t ∈ ts
  | _ => true

theorem accepts_of_empty {ts : List T} (h : st.checksOnly ts = true)
    (hd : ∀ t ∈ ts, d t = []) (ha : st.alter s = some s') : st.Accepts s' d := by
  cases st with
  | addColumn _ _ _ _ _ => cases h
  | update _ _ _ => cases h
  | createUnique u =>
    have hu : d u.table = [] := hd _ (by simpa [Statement.checksOnly] using h)
    simp [Statement.Accepts, Unique.Holds, hu]
  | addForeignKey k =>
    have hk : d k.table = [] := hd _ (by simpa [Statement.checksOnly] using h)
    simp [Statement.Accepts, ForeignKey.Holds, hk]
  | alterType t name type convert =>
    have ht : d t = [] := hd _ (by simpa [Statement.checksOnly] using h)
    rw [Statement.alter, Option.ite_none_right_eq_some] at ha
    obtain ⟨⟨-,-,-,hkeys⟩,ha⟩ := ha
    cases ha
    refine ⟨fun c hc => ?_,fun u hu => ?_,fun k hk => ?_⟩
    · have hct : c.table = t := by
        simpa [Column.isOneOf] using (Bool.and_eq_true_iff.mp (List.mem_filter.mp hc).2).1
      simp [Column.Holds, hct, ht]
    · have hut : u.table = t := by
        simpa using (Bool.and_eq_true_iff.mp (List.mem_filter.mp hu).2).1
      simp [Unique.Holds, hut, ht]
    · obtain ⟨hk,hr⟩ := List.mem_filter.mp hk
      have := List.all_eq_true.mp hkeys k hk
      simp [hr] at this
  | _ => trivial

omit [DecidableEq N] [DecidableEq L] in
theorem rewrite_empty {t : T} (h : d t = []) : st.rewrite s d t = [] := by
  have hmap : ∀ t' (g : Row C L → Row C L), mapRows t' g d t = [] := by
    intro t' g
    by_cases ht : t = t'
    · rw [← ht, mapRows_self, h, List.map_nil]
    · rw [mapRows_of_ne ht, h]
  cases st with
  | addColumn _ _ _ _ _ => exact hmap _ _
  | update _ _ _ => exact hmap _ _
  | alterType _ _ _ _ => exact hmap _ _
  | truncate ts cascade => simp [Statement.rewrite, h]
  | _ => exact h

/-- Nothing can go wrong on empty tables. -/
theorem run_of_empty {ts : List T} (h : sts.all (Statement.checksOnly ts) = true)
    (hd : ∀ t ∈ ts, d t = []) (ha : alterAll sts s = some s') :
    ∃ d', run sts (s,d) = .ok (s',d') := by
  induction sts generalizing s d with
  | nil =>
    cases ha
    exact ⟨d,rfl⟩
  | cons st sts ih =>
    simp only [List.all_cons, Bool.and_eq_true] at h
    rw [alterAll, Option.bind_eq_some_iff] at ha
    obtain ⟨s'',ha,hb⟩ := ha
    have hd' : ∀ t ∈ ts, st.rewrite s d t = [] := fun t ht => rewrite_empty (hd t ht)
    obtain ⟨d',hrun⟩ := ih h.2 hd' hb
    refine ⟨d',?_⟩
    rw [run, exec_of_accepts ha (accepts_of_empty h.1 hd' ha)]
    exact hrun

omit [DecidableEq C] [DecidableEq N] [DecidableEq L] in
theorem mem_truncated {t : T} {ts : List T} (cascade : Bool) (h : t ∈ ts) :
    t ∈ s.truncated ts cascade := by
  unfold Schema.truncated
  split
  · generalize s.foreignKeys.length = n
    induction n generalizing ts with
    | zero => exact h
    | succ n ih =>
      rw [Function.iterate_succ_apply]
      exact ih (List.mem_append_left _ h)
  · exact h

/-- Truncating a table first makes room for any constraint on it. -/
theorem run_truncate {ts : List T} {cascade : Bool}
    (h : sts.all (Statement.checksOnly ts) = true)
    (ha : alterAll (.truncate ts cascade::sts) s = some s') :
    ∃ d', run (.truncate ts cascade::sts) (s,d) = .ok (s',d') := by
  rw [alterAll, Option.bind_eq_some_iff] at ha
  obtain ⟨s'',ha,hb⟩ := ha
  obtain ⟨d',hrun⟩ := run_of_empty (d := (Statement.truncate ts cascade).rewrite s d) h
    (fun t ht => if_pos (mem_truncated cascade ht)) hb
  refine ⟨d',?_⟩
  rw [run, exec_of_accepts ha trivial]
  exact hrun

theorem run_neutral_append (h : sts.all Statement.isNeutral = true)
    (ha : alterAll sts s = some s') : run (sts++sts') (s,d) = run sts' (s',d) := by
  rw [run_append, run_of_neutral h ha]
  rfl

end Runs

end RelationalSchema
