import DocPipeline.Library.SchemaHistory
import DocPipeline.Library.Runs
import DocPipeline.Migrations

/-!
# The life of an installation

Each `downgrade` is its list of commands. An installation is a database with
its row of `alembic_version`. It is upgraded and downgraded to any version, and
in between its rows are written as the catalogue admits.
-/

set_option autoImplicit false

namespace DocPipeline.Installations
open DocPipeline.Migrations RelationalSchema LabelledRuns

abbrev Change := Command TableName ColumnName ObjectName Migrations.Label

def plain (sts : List Sql) : List Change := sts.map .statement

section Downgrades

/-- 2504b99774c5. The enum types stay. -/
def initial.downgrade : List Change :=
  [.dropTable .artifacts,.dropTable .jobs,.dropTable .documents,.dropTable .accounts]

def addFailedAtToJobs.downgrade : List Change := plain [.dropColumn .jobs .failedAt]

def addFileNameToDocuments.downgrade : List Change := plain [.dropColumn .documents .fileName]

def addOneActiveJobPerDocumentIndex.downgrade : List Change :=
  plain [.drop .oneActiveJobPerDocument true]

def widen : Sql := .alterType .jobs .status (.enum .jobStatusEnumNew) (fun row => row .status)

/-- 29e93f1a2527. The type is `job_status_enum_old` until it is renamed. -/
def removeCreatedFromJobStatusEnum.downgrade : List Change := plain
  [.drop .oneActiveJobPerDocument false,
    .dropDefault .jobs .status,
    .createType .jobStatusEnumNew [.created,.queued,.started,.completed,.failed],
    widen,
    .dropType .jobStatusEnum,
    .renameType .jobStatusEnumNew .jobStatusEnum,
    .setDefault .jobs .status (.label .created),
    .createUnique (oneActiveJob [.created,.queued,.started])]

def toInteger (t : TableName) (name : ColumnName) : Sql :=
  .alterType t name .integer (fun _ => .integer 0)

def uuidPrimaryKeys.downgrade : List Change :=
  plain [.drop .oneActiveJobPerDocument true,
    .drop .artifactsJobIdFkey true,
    .drop .artifactsDocumentIdFkey true,
    .drop .jobsDocumentIdFkey true] ++
  plain [.truncate [.artifacts,.jobs,.documents] true,
    toInteger .jobs .documentId,
    toInteger .artifacts .documentId,
    toInteger .artifacts .jobId] ++
  uuidTables.flatMap (fun t =>
    [.statement (toInteger t .id),.createSequence t .id,.setNextval t .id]) ++
  plain [.addForeignKey (foreignKey .jobsDocumentIdFkey .jobs .documentId .documents),
    .addForeignKey (foreignKey .artifactsDocumentIdFkey .artifacts .documentId .documents),
    .addForeignKey (foreignKey .artifactsJobIdFkey .artifacts .jobId .jobs),
    .createUnique (oneActiveJob [.queued,.started])]

/-- b2c3d4e5f6a7. The column comes back empty, and then loses its default. -/
def dropDocumentsFileName.downgrade : List Change := plain
  [.addColumn .documents .fileName .string false (some (.text "")),
    .dropDefault .documents .fileName]

def artifactUniqueDocumentType.downgrade : List Change := plain
  [.truncate [.artifacts] false,
    .drop .artifactsDocumentIdArtifactTypeKey false,
    .createUnique (unique .artifactsObjectKeyKey .artifacts [.objectKey])]

def downgrade : Revision → List Change
  | .r2504b99774c5 => initial.downgrade
  | .r2cf5e2bafa8f => addFailedAtToJobs.downgrade
  | .rc3890ddba5ac => addFileNameToDocuments.downgrade
  | .r3c12203559ad => addOneActiveJobPerDocumentIndex.downgrade
  | .r29e93f1a2527 => removeCreatedFromJobStatusEnum.downgrade
  | .ra1b2c3d4e5f6 => uuidPrimaryKeys.downgrade
  | .rb2c3d4e5f6a7 => dropDocumentsFileName.downgrade
  | .rc3d4e5f6a7b8 => artifactUniqueDocumentType.downgrade

def downRevision : Revision → Option Revision
  | .r2504b99774c5 => none
  | .r2cf5e2bafa8f => some .r2504b99774c5
  | .rc3890ddba5ac => some .r2cf5e2bafa8f
  | .r3c12203559ad => some .rc3890ddba5ac
  | .r29e93f1a2527 => some .r3c12203559ad
  | .ra1b2c3d4e5f6 => some .r29e93f1a2527
  | .rb2c3d4e5f6a7 => some .ra1b2c3d4e5f6
  | .rc3d4e5f6a7b8 => some .rb2c3d4e5f6a7

end Downgrades

section Installations

structure Installation where
  version : Option Revision
  catalogue : Catalogue
  contents : Contents

inductive Order where
  | upgrade (target : Revision)
  | downgrade (target : Option Revision)

def applied : Option Revision → List Revision
  | none => []
  | some r => upTo r

def atMost (p q : Option Revision) : Bool := (applied p).length ≤ (applied q).length

-- an upgrade to a revision that is passed already runs nothing
def Order.steps (version : Option Revision) : Order → List Revision
  | .upgrade target => (upTo target).drop (applied version).length
  | .downgrade target => ((applied version).drop (applied target).length).reverse

def ascend (v : Volatile) (x : Installation) (r : Revision) : Except Failure Installation :=
  (perform (plain (upgrade v r)) (x.catalogue,x.contents)).map (fun y => ⟨some r,y.1,y.2⟩)

def descend (x : Installation) (r : Revision) : Except Failure Installation :=
  (perform (downgrade r) (x.catalogue,x.contents)).map (fun y => ⟨downRevision r,y.1,y.2⟩)

inductive Refusal where
  | notATarget
  | migration (e : Failure)
  deriving DecidableEq

/-- `context.run_migrations()`. What lies above the version is no target of a
downgrade. -/
def invoke (v : Volatile) (o : Order) (x : Installation) : Except Refusal Installation :=
  match o with
  | .upgrade _ => ((o.steps x.version).foldlM (ascend v) x).mapError .migration
  | .downgrade target =>
    if atMost target x.version then ((o.steps x.version).foldlM descend x).mapError .migration
    else .error .notATarget

inductive Event where
  | alembic (v : Volatile) (o : Order)
  | write (d : Contents)

/-- `_run_sync_migrations` runs an order in one transaction: a failure leaves
everything as it was. -/
def step (x : Installation) : Event → Option Installation
  | .alembic v o => some ((invoke v o x).toOption.getD x)
  | .write d => if Admits x.catalogue d then some { x with contents := d } else none

def fresh : Installation := ⟨none,.empty,fun _ => []⟩

end Installations

section Catalogues

def leftover : Catalogue := (alterEach initial.downgrade (schemaAt .r2504b99774c5)).getD .empty

-- sequences that `CREATE SEQUENCE` has put in the place of those of `SERIAL`
def recounted (s : Catalogue) : Catalogue :=
  { s with sequences := s.sequences.map fun q => if q.1 ∈ uuidTables then (q.1,.bigint) else q }

/-- The catalogues of a version: that of the upgrades, and those in which
downgrades have left their marks, at `base` the enum types and elsewhere the
lost default of `file_name` and the wider sequences of the keys. -/
def catalogueAt (marked wide : Bool) : Option Revision → Catalogue
  | none => if marked then leftover else .empty
  | some r =>
      let s := if marked then (schemaAt r).mapColumn .documents .fileName Column.undefaulted
        else schemaAt r
      if wide then recounted s else s

def Known (version : Option Revision) (s : Catalogue) : Prop :=
  ∃ marked wide, s.Same (catalogueAt marked wide version)

def known (version : Option Revision) (s : Catalogue) : Bool :=
  s.Same (catalogueAt false false version) || s.Same (catalogueAt false true version) ||
    s.Same (catalogueAt true false version) || s.Same (catalogueAt true true version)

theorem known_iff {version : Option Revision} {s : Catalogue} :
    known version s = true ↔ Known version s := by
  simp [known, Known, or_assoc]

theorem ascend_catalogue : ∀ r ∈ revisions, ∀ marked wide : Bool,
    (alterEach (plain (upgrade still r)) (catalogueAt marked wide (downRevision r))).all
        (known (some r)) = true ∧
      (alterEach (plain (upgrade still r)) (catalogueAt marked wide (downRevision r))).isSome =
        !(marked && decide (downRevision r = none)) := by
  decide +kernel

theorem descend_catalogue : ∀ r ∈ revisions, ∀ marked wide : Bool,
    (alterEach (downgrade r) (catalogueAt marked wide (some r))).all (known (downRevision r)) = true ∧
      (alterEach (downgrade r) (catalogueAt marked wide (some r))).isSome = true := by
  decide +kernel

theorem alterEach_plain (v : Volatile) (r : Revision) (s : Catalogue) :
    alterEach (plain (upgrade v r)) s = alterEach (plain (upgrade still r)) s := by
  rw [plain, plain, alterEach_statements, alterEach_statements, alterAll_upgrade]

theorem Known.of_same {version : Option Revision} {s s' : Catalogue} (h : Known version s)
    (hs : s.Same s') : Known version s' :=
  h.imp fun _ hm => hm.imp fun _ hm => hs.symm.trans hm

theorem catalogueAt_alike (marked wide : Bool) (r : Revision) :
    (schemaAt r).Alike (catalogueAt marked wide (some r)) := by
  have hmarked : (schemaAt r).Alike (catalogueAt marked false (some r)) := by
    cases marked
    · exact (Schema.Same.refl _).alike
    · exact Schema.alike_undefaulted _ _ _
  cases wide
  · exact hmarked
  · exact ⟨hmarked.types,hmarked.columns,hmarked.uniques,hmarked.foreignKeys⟩

end Catalogues

section Migrations

variable {v : Volatile} {r : Revision} {version : Option Revision} {s : Catalogue} {d : Contents}
variable {cs : List Change} {y : Catalogue × Contents}

theorem known_of_perform {version' : Option Revision} (hs : Known version s)
    (hall : ∀ marked wide,
      (alterEach cs (catalogueAt marked wide version)).all (known version') = true)
    (hrun : perform cs (s,d) = .ok y) : Known version' y.1 := by
  obtain ⟨marked,wide,hs⟩ := hs
  obtain ⟨u,hu,hsame⟩ := hs.alterEach (alterEach_of_perform hrun)
  have hk := hall marked wide
  rw [hu, Option.all_some, known_iff] at hk
  exact hk.of_same hsame.symm

/-- Whether a run fails on the rows is the same on every known catalogue. -/
theorem perform_known_iff (hs : Known (some r) s)
    (hall : ∀ marked wide, (alterEach cs (catalogueAt marked wide (some r))).isSome = true) :
    (∃ y, perform cs (s,d) = .ok y) ↔ ∃ y, perform cs (schemaAt r,d) = .ok y := by
  obtain ⟨marked,wide,hs⟩ := hs
  obtain ⟨u,hu⟩ := Option.isSome_iff_exists.mp (hall marked wide)
  obtain ⟨u',hu'⟩ := Option.isSome_iff_exists.mp (hall false false)
  have halike := catalogueAt_alike marked wide r
  constructor
  · rintro ⟨y,hy⟩
    obtain ⟨z,hz,-⟩ := hs.perform hy
    exact ⟨_,(halike.symm.perform hz hu').1⟩
  · rintro ⟨y,hy⟩
    obtain ⟨z,hz,-⟩ := hs.symm.perform (halike.perform hy hu).1
    exact ⟨_,hz⟩

theorem admits_of_known (hs : Known (some r) s) (h : Admits s d) : Admits (schemaAt r) d := by
  obtain ⟨marked,wide,hs⟩ := hs
  exact (catalogueAt_alike marked wide r).symm.admits (hs.alike.admits h)

end Migrations

section Widening

variable {d : Contents}

def loosened : Catalogue :=
  (alterAll [.drop .oneActiveJobPerDocument false,.dropDefault .jobs .status,
    .createType .jobStatusEnumNew [.created,.queued,.started,.completed,.failed]]
    (schemaAt .r29e93f1a2527)).getD .empty

def widened : Catalogue := (widen.alter loosened).getD .empty

def restored : Catalogue :=
  (alterAll [.dropType .jobStatusEnum,.renameType .jobStatusEnumNew .jobStatusEnum,
    .setDefault .jobs .status (.label .created)] widened).getD .empty

theorem catalogue_widened : alterAll [.drop .oneActiveJobPerDocument false,
      .dropDefault .jobs .status,
      .createType .jobStatusEnumNew [.created,.queued,.started,.completed,.failed]]
      (schemaAt .r29e93f1a2527) = some loosened ∧
    widen.alter loosened = some widened ∧
    widened.columnsAt .jobs [.status] = [⟨.jobs,.status,.enum .jobStatusEnumNew,false,none⟩] ∧
    widened.uniquesAt .jobs [.status] = [] ∧ widened.foreignKeysAt .jobs [.status] = [] ∧
    (∀ l ∈ [Migrations.Label.queued,.started,.completed,.failed],
      fits widened.types (.enum .jobStatusEnumNew) (.label l) = true) ∧
    alterAll [.dropType .jobStatusEnum,.renameType .jobStatusEnumNew .jobStatusEnum,
      .setDefault .jobs .status (.label .created)] widened = some restored ∧
    ((Statement.createUnique (oneActiveJob [.created,.queued,.started])).alter restored).isSome =
      true := by
  decide +kernel

theorem catalogue_narrow : (schemaAt .r29e93f1a2527).types = [(.artifactTypeEnum,[.markdown]),
      (.jobStatusEnum,[.queued,.started,.completed,.failed])] ∧
    (⟨.jobs,.status,.enum .jobStatusEnum,false,some (.value (.label .queued))⟩ :
      Column TableName ColumnName ObjectName Migrations.Label) ∈ (schemaAt .r29e93f1a2527).columns ∧
    oneActiveJob [.queued,.started] ∈ (schemaAt .r29e93f1a2527).uniques := by
  decide

theorem surviving_of_admits (h : Admits (schemaAt .r29e93f1a2527) d) {row : Record}
    (hrow : row ∈ d .jobs) : Surviving (row .status) := by
  obtain ⟨htypes,hc,-⟩ := catalogue_narrow
  have hf := h.columns _ hc row hrow
  simp only [htypes, Bool.false_eq_true, and_false, false_or] at hf
  cases hs : row .status with
  | label l =>
    rw [hs] at hf
    refine ⟨l,?_,rfl⟩
    cases l <;> first | decide | exact absurd hf (by decide)
  | _ =>
    rw [hs] at hf
    cases hf

theorem rewrite_widen (s : Catalogue) : widen.rewrite s d = d := by
  funext t
  by_cases ht : t = .jobs
  · subst ht
    simp [widen, Statement.rewrite, mapRows_self]
  · exact mapRows_of_ne ht

theorem accepts_widen (h : ∀ row ∈ d .jobs, Surviving (row .status)) : widen.Accepts widened d := by
  obtain ⟨-,-,hc,hu,hk,hfits,-⟩ := catalogue_widened
  refine ⟨?_,by rw [hu]; exact fun _ hm => absurd hm List.not_mem_nil,
    by rw [hk]; exact fun _ hm => absurd hm List.not_mem_nil⟩
  rw [hc, List.forall_mem_singleton]
  intro row hrow
  obtain ⟨l,hl,hs⟩ := h row hrow
  simp only [hs]
  exact Or.inr (hfits l hl)

/-- Without a created job the wider index says no more than the narrower. -/
theorem wider_index (h : Admits (schemaAt .r29e93f1a2527) d) :
    (oneActiveJob [.created,.queued,.started]).Holds d := by
  have hcovers : ∀ row ∈ d .jobs, (oneActiveJob [.created,.queued,.started]).covers row = true →
      (oneActiveJob [.queued,.started]).covers row = true := by
    intro row hrow hc
    rw [covers_oneActiveJob] at hc ⊢
    obtain ⟨l,hl,hs⟩ := hc
    refine ⟨l,(List.mem_cons.mp hl).resolve_left (fun he => ?_),hs⟩
    obtain ⟨l',hl',hs'⟩ := surviving_of_admits h hrow
    rw [hs, he] at hs'
    cases hs'
    exact absurd hl' (by decide)
  refine (h.uniques _ catalogue_narrow.2.2).imp_of_mem (fun ha hb hn hc => hn ?_)
  exact ⟨hcovers _ ha hc.1,hcovers _ hb hc.2.1,hc.2.2⟩

theorem perform_widening (h : Admits (schemaAt .r29e93f1a2527) d) :
    ∃ y, perform (downgrade .r29e93f1a2527) (schemaAt .r29e93f1a2527,d) = .ok y := by
  obtain ⟨hdrop,hwiden,-,-,-,-,hrename,hcreate⟩ := catalogue_widened
  obtain ⟨s,hcreate⟩ := Option.isSome_iff_exists.mp hcreate
  have hacc : widen.Accepts widened (widen.rewrite loosened d) := by
    rw [rewrite_widen]
    exact accepts_widen (fun _ => surviving_of_admits h)
  have hsplit : downgrade .r29e93f1a2527 = plain
      ([.drop .oneActiveJobPerDocument false,.dropDefault .jobs .status,
        .createType .jobStatusEnumNew [.created,.queued,.started,.completed,.failed]] ++ widen::
      ([.dropType .jobStatusEnum,.renameType .jobStatusEnumNew .jobStatusEnum,
        .setDefault .jobs .status (.label .created)] ++
        [.createUnique (oneActiveJob [.created,.queued,.started])])) := rfl
  refine ⟨(s,d),?_⟩
  rw [hsplit, plain, perform_statements, run_neutral_append rfl hdrop, run_cons hwiden hacc,
    rewrite_widen, run_neutral_append rfl hrename, run_createUnique hcreate (wider_index h)]
  rfl

end Widening

section Migrations

variable {v : Volatile} {r : Revision} {s : Catalogue} {d : Contents}

def refill : Sql := .addColumn .documents .fileName .string false (some (.text ""))

def refilled : Catalogue := (refill.alter (schemaAt .rb2c3d4e5f6a7)).getD .empty

theorem catalogue_refilled : refill.alter (schemaAt .rb2c3d4e5f6a7) = some refilled ∧
    refilled.columnsAt .documents [.fileName] =
      [⟨.documents,.fileName,.string,false,some (.value (.text ""))⟩] ∧
    refilled.uniquesAt .documents [.fileName] = [] ∧
    refilled.foreignKeysAt .documents [.fileName] = [] ∧
    ((Statement.dropDefault .documents .fileName).alter refilled).isSome = true := by
  decide

theorem perform_refill :
    ∃ y, perform (downgrade .rb2c3d4e5f6a7) (schemaAt .rb2c3d4e5f6a7,d) = .ok y := by
  obtain ⟨hadd,hc,hu,hk,hdrop⟩ := catalogue_refilled
  obtain ⟨s,hdrop⟩ := Option.isSome_iff_exists.mp hdrop
  have hacc : refill.Accepts refilled (refill.rewrite (schemaAt .rb2c3d4e5f6a7) d) :=
    accepts_addColumn hc rfl rfl hu hk (Or.inr rfl)
  exact ⟨_,(perform_statements _ _).trans ((run_cons hadd hacc).trans (run_singleton hdrop trivial))⟩

/-- A downgrade finds nothing in the rows that could stop it. -/
theorem perform_downgrade (h : Admits (schemaAt r) d) :
    ∃ y, perform (downgrade r) (schemaAt r,d) = .ok y := by
  obtain ⟨s,ha⟩ := Option.isSome_iff_exists.mp (descend_catalogue r (mem_revisions r) false false).2
  have hrun : (∃ d', perform (downgrade r) (schemaAt r,d) = .ok (s,d')) →
      ∃ y, perform (downgrade r) (schemaAt r,d) = .ok y := fun ⟨d',hd⟩ => ⟨(s,d'),hd⟩
  cases r with
  | r2504b99774c5 | r2cf5e2bafa8f | rc3890ddba5ac | r3c12203559ad =>
    exact hrun (perform_of_unchecked rfl ha)
  | r29e93f1a2527 => exact perform_widening h
  | ra1b2c3d4e5f6 =>
    have hsplit : downgrade .ra1b2c3d4e5f6 =
        uuidPrimaryKeys.downgrade.take 4++uuidPrimaryKeys.downgrade.drop 4 := rfl
    rw [hsplit] at ha hrun ⊢
    exact hrun (perform_unchecked_append rfl ha (fun _ hb _ => perform_truncate rfl rfl hb))
  | rb2c3d4e5f6a7 => exact perform_refill
  | rc3d4e5f6a7b8 => exact hrun (perform_truncate rfl rfl ha)

def NoRivals (d : Contents) : Prop := (d .jobs).Pairwise (fun a b => ¬ Rival a b)

instance (d : Contents) : Decidable (NoRivals d) := inferInstanceAs (Decidable (List.Pairwise _ _))

theorem perform_single {st : Sql} {s' : Catalogue} (ha : alterAll [st] s = some s')
    (hacc : st.Accepts s' (st.rewrite s d)) : ∃ y, perform (plain [st]) (s,d) = .ok y := by
  rw [alterAll_singleton] at ha
  exact ⟨_,(perform_statements _ _).trans (run_singleton ha hacc)⟩

theorem perform_index (h : Admits (schemaAt .rc3890ddba5ac) d) :
    (∃ y, perform (plain (upgrade v .r3c12203559ad)) (schemaAt .rc3890ddba5ac,d) = .ok y) ↔
      NoRivals d := by
  have ha := (follows (r := .rc3890ddba5ac) rfl).alterAll (v := v)
  rw [upgrade, addOneActiveJobPerDocumentIndex, alterAll_singleton] at ha
  rw [NoRivals, ← holds_iff_rivals h, plain, perform_statements, upgrade,
    addOneActiveJobPerDocumentIndex, RelationalSchema.run, exec_createUnique ha]
  by_cases hu : (oneActiveJob [.created,.queued,.started]).Holds d
  · rw [if_pos hu]
    exact iff_of_true ⟨_,rfl⟩ hu
  · rw [if_neg hu]
    refine iff_of_false ?_ hu
    rintro ⟨_,hy⟩
    cases hy

/-- Of the upgrades only the index can fail on the rows. -/
theorem perform_upgrade {p : Revision} (hp : downRevision r = some p) (h : Admits (schemaAt p) d) :
    (∃ y, perform (plain (upgrade v r)) (schemaAt p,d) = .ok y) ↔
      (r = .r3c12203559ad → NoRivals d) := by
  have hall := (ascend_catalogue r (mem_revisions r) false false).2
  rw [hp, Bool.false_and, Bool.not_false, ← alterEach_plain v] at hall
  obtain ⟨s,ha⟩ := Option.isSome_iff_exists.mp hall
  have hrun : (∃ d', perform (plain (upgrade v r)) (schemaAt p,d) = .ok (s,d')) → r ≠ .r3c12203559ad →
      ((∃ y, perform (plain (upgrade v r)) (schemaAt p,d) = .ok y) ↔
        (r = .r3c12203559ad → NoRivals d)) :=
    fun ⟨d',hd⟩ hne => iff_of_true ⟨(s,d'),hd⟩ (fun he => absurd he hne)
  cases r with
  | r2504b99774c5 => cases hp
  | r2cf5e2bafa8f =>
    cases hp
    obtain ⟨-,hc,hu,hk⟩ := catalogue_added
    refine iff_of_true (perform_single ((follows (r := .r2504b99774c5) rfl).alterAll (v := v)) ?_) nofun
    exact accepts_addColumn hc rfl rfl hu hk (Or.inl ⟨rfl,rfl⟩)
  | rc3890ddba5ac =>
    cases hp
    obtain ⟨⟨hc,hu,hk⟩,-⟩ := catalogue_added
    refine iff_of_true (perform_single ((follows (r := .r2cf5e2bafa8f) rfl).alterAll (v := v)) ?_) nofun
    exact accepts_addColumn hc rfl rfl hu hk (Or.inr rfl)
  | r3c12203559ad =>
    cases hp
    rw [perform_index h]
    exact ⟨fun hd _ => hd,fun hd => hd rfl⟩
  | r29e93f1a2527 =>
    cases hp
    have hd := run_removeCreated (v := v) h
    rw [← perform_statements] at hd
    exact iff_of_true ⟨_,hd⟩ (fun he => nomatch he)
  | ra1b2c3d4e5f6 =>
    have hsplit : plain (upgrade v .ra1b2c3d4e5f6) =
        plain ((uuidPrimaryKeys v).take 4)++plain ((uuidPrimaryKeys v).drop 4) := rfl
    rw [hsplit] at ha hrun ⊢
    exact hrun (perform_unchecked_append rfl ha (fun _ hb _ => perform_truncate rfl rfl hb)) nofun
  | rb2c3d4e5f6a7 => exact hrun (perform_of_unchecked rfl ha) nofun
  | rc3d4e5f6a7b8 => exact hrun (perform_truncate rfl rfl ha) nofun

end Migrations

section Kept

variable {v : Volatile} {r : Revision} {s : Catalogue} {d : Contents} {t : TableName}

def overwritten : TableName → List ColumnName
  | .documents => [.fileName]
  | .jobs => [.status,.queuedAt,.failedAt]
  | .accounts | .artifacts => []

def purged : TableName → List Revision
  | .accounts => []
  | .documents | .jobs => [.ra1b2c3d4e5f6]
  | .artifacts => [.ra1b2c3d4e5f6,.rc3d4e5f6a7b8]

structure Kept (t : TableName) (row row' : Record) : Prop where
  columns : ∀ c ∉ overwritten t, row' c = row c
  status : t = .jobs → row' .status = row .status ∨
    row .status = .label .created ∧ row' .status = .label .queued
  queuedAt : t = .jobs → row .status ≠ .label .created → row' .queuedAt = row .queuedAt

theorem Kept.refl (t : TableName) (row : Record) : Kept t row row :=
  ⟨fun _ _ => rfl,fun _ => Or.inl rfl,fun _ _ => rfl⟩

theorem Kept.trans {a b c : Record} (h : Kept t a b) (h' : Kept t b c) : Kept t a c where
  columns x hx := (h'.columns x hx).trans (h.columns x hx)
  status ht := by
    rcases h.status ht with hb | ⟨ha,hb⟩
    · rw [← hb]
      exact h'.status ht
    · rcases h'.status ht with hc | ⟨hb',-⟩
      · exact Or.inr ⟨ha,hc.trans hb⟩
      · rw [hb] at hb'
        cases hb'
  queuedAt ht ha := by
    have hb : b .status ≠ .label .created := by
      rcases h.status ht with hb | ⟨ha',-⟩
      · rwa [hb]
      · exact absurd ha' ha
    rw [h'.queuedAt ht hb, h.queuedAt ht ha]

theorem Kept.of_eq {row row' : Record} (h : row' = row) : Kept t row row' := h ▸ Kept.refl t row

/-- Values of a column that migrations overwrite in every row. -/
theorem Kept.update {row : Record} {name : ColumnName} {x : Value Migrations.Label}
    (hc : name ∈ overwritten t) (hs : t = .jobs → name ≠ .status ∧ name ≠ .queuedAt) :
    Kept t row (Function.update row name x) where
  columns c hne := Function.update_of_ne (by rintro rfl; exact hne hc) _ _
  status ht := Or.inl (Function.update_of_ne (hs ht).1.symm _ _)
  queuedAt ht _ := Function.update_of_ne (hs ht).2.symm _ _

theorem kept_backfill (row : Record) : Kept .jobs row (backfill v row) where
  columns c hc := by
    simp only [overwritten, List.mem_cons, List.not_mem_nil, or_false, not_or] at hc
    exact backfill_of_not_mem row c (by simp [hc])
  status _ := by
    rw [backfill_status]
    by_cases hs : row .status = .label .created
    · exact Or.inr ⟨hs,if_pos hs⟩
    · exact Or.inl (if_neg hs)
  queuedAt _ hs := (backfill_queuedAt row).trans (if_neg hs)

theorem kept_fill (row : Record) :
    Kept .jobs row ((Command.statement (fill v) : Change).onRow .jobs row) := by
  have hfill : (Command.statement (fill v)).onRow .jobs row = backfill v row := by
    simp [Command.onRow, Statement.onRow, fill, backfill]
  rw [hfill]
  exact kept_backfill row

theorem kept_upgrade (hr : r ∉ purged t) :
    ∀ c ∈ plain (upgrade v r), ∀ row, Kept t row (c.onRow t row) := by
  refine onRow_of_edits (Kept.refl t) ?_
  cases t with
  | accounts => cases r <;> exact fun c hc => absurd hc List.not_mem_nil
  | artifacts =>
    cases r with
    | ra1b2c3d4e5f6 | rc3d4e5f6a7b8 => exact absurd (by decide) hr
    | _ => exact fun c hc => absurd hc List.not_mem_nil
  | documents =>
    cases r with
    | ra1b2c3d4e5f6 => exact absurd (by decide) hr
    | rc3890ddba5ac =>
      intro c hc row
      obtain rfl := List.mem_singleton.mp hc
      exact Kept.update (by decide) nofun
    | _ => exact fun c hc => absurd hc List.not_mem_nil
  | jobs =>
    cases r with
    | ra1b2c3d4e5f6 => exact absurd (by decide) hr
    | r2cf5e2bafa8f =>
      intro c hc row
      obtain rfl := List.mem_singleton.mp hc
      exact Kept.update (by decide) (fun _ => by decide)
    | r29e93f1a2527 =>
      intro c hc row
      have hc : c ∈ [.statement (fill v),.statement narrow] := hc
      simp only [List.mem_cons, List.not_mem_nil, or_false] at hc
      rcases hc with rfl | rfl
      · exact kept_fill row
      · exact Kept.of_eq (Function.update_eq_self _ _)
    | _ => exact fun c hc => absurd hc List.not_mem_nil

theorem kept_downgrade (hr : r ∉ purged t) :
    ∀ c ∈ downgrade r, ∀ row, Kept t row (c.onRow t row) := by
  refine onRow_of_edits (Kept.refl t) ?_
  cases t with
  | accounts => cases r <;> exact fun c hc => absurd hc List.not_mem_nil
  | artifacts =>
    cases r with
    | ra1b2c3d4e5f6 | rc3d4e5f6a7b8 => exact absurd (by decide) hr
    | _ => exact fun c hc => absurd hc List.not_mem_nil
  | documents =>
    cases r with
    | ra1b2c3d4e5f6 => exact absurd (by decide) hr
    | rb2c3d4e5f6a7 =>
      intro c hc row
      obtain rfl := List.mem_singleton.mp hc
      exact Kept.update (by decide) nofun
    | _ => exact fun c hc => absurd hc List.not_mem_nil
  | jobs =>
    cases r with
    | ra1b2c3d4e5f6 => exact absurd (by decide) hr
    | r29e93f1a2527 =>
      intro c hc row
      obtain rfl := List.mem_singleton.mp hc
      exact Kept.of_eq (Function.update_eq_self _ _)
    | _ => exact fun c hc => absurd hc List.not_mem_nil

theorem emptiesAny_plain (v : Volatile) (r : Revision) (s : Catalogue) (t : TableName) :
    emptiesAny t (plain (upgrade v r)) s = emptiesAny t (plain (upgrade still r)) s := by
  cases r <;> rfl

theorem catalogue_purged : ∀ r ∈ revisions, ∀ marked wide : Bool, ∀ t,
    emptiesAny t (plain (upgrade still r)) (catalogueAt marked wide (downRevision r)) =
        decide (r ∈ purged t) ∧
      emptiesAny t (downgrade r) (catalogueAt marked wide (some r)) =
        (decide (r ∈ purged t) || decide (downRevision r = none)) := by
  decide +kernel

theorem rows_ascend {y : Catalogue × Contents} (hs : Known (downRevision r) s)
    (hrun : perform (plain (upgrade v r)) (s,d) = .ok y) (t : TableName) :
    if r ∈ purged t then y.2 t = [] else List.Forall₂ (Kept t) (d t) (y.2 t) := by
  obtain ⟨marked,wide,hs⟩ := hs
  obtain ⟨u,hu,-⟩ := hs.perform hrun
  have he := (catalogue_purged r (mem_revisions r) marked wide t).1
  rw [← emptiesAny_plain v] at he
  split
  · rename_i hr
    have hempty := perform_emptied hu (he.trans (decide_eq_true hr))
    exact hempty
  · rename_i hr
    exact perform_kept (Kept.refl t) (fun _ _ _ => Kept.trans) (kept_upgrade hr) hu
      (he.trans (decide_eq_false hr))

theorem rows_descend {y : Catalogue × Contents} (hs : Known (some r) s)
    (hrun : perform (downgrade r) (s,d) = .ok y) (t : TableName) :
    if r ∈ purged t ∨ downRevision r = none then y.2 t = []
    else List.Forall₂ (Kept t) (d t) (y.2 t) := by
  obtain ⟨marked,wide,hs⟩ := hs
  obtain ⟨u,hu,-⟩ := hs.perform hrun
  have he := (catalogue_purged r (mem_revisions r) marked wide t).2
  split
  · rename_i hr
    have hempty := perform_emptied hu (he.trans (by simpa using hr))
    exact hempty
  · rename_i hr
    rw [not_or] at hr
    refine perform_kept (Kept.refl t) (fun _ _ _ => Kept.trans) (kept_downgrade hr.1) hu (he.trans ?_)
    simpa using hr

/-- Migrations that keep the rows of the jobs make no rivals and part none. -/
theorem noRivals_kept {e : Contents} (h : List.Forall₂ (Kept .jobs) (d .jobs) (e .jobs)) :
    NoRivals d ↔ NoRivals e := by
  have hactive : ∀ {a a' : Record}, Kept .jobs a a' → (Active a ↔ Active a') := by
    intro a a' h
    rcases h.status rfl with hs | ⟨hs,hs'⟩
    · simp only [Active, hs]
    · simp [Active, hs, hs']
  refine pairwise_kept h (fun a a' b b' ha hb => not_congr ?_)
  have hkey : ∀ {a a' : Record}, Kept .jobs a a' →
      a' .accountId = a .accountId ∧ a' .documentId = a .documentId := fun h =>
    ⟨h.columns _ (by decide),h.columns _ (by decide)⟩
  simp only [Rival, hactive ha, hactive hb, hkey ha, hkey hb]

end Kept

section Orders

variable {v : Volatile} {r : Revision} {x y : Installation} {rs : List Revision}

structure Healthy (x : Installation) : Prop where
  known : Known x.version x.catalogue
  admitted : Admits x.catalogue x.contents

theorem ascend_ok : ascend v x r = .ok y ↔ ∃ z,
    perform (plain (upgrade v r)) (x.catalogue,x.contents) = .ok z ∧ ⟨some r,z.1,z.2⟩ = y := by
  unfold ascend
  cases perform (plain (upgrade v r)) (x.catalogue,x.contents) <;> simp [Except.map]

theorem descend_ok : descend x r = .ok y ↔ ∃ z,
    perform (downgrade r) (x.catalogue,x.contents) = .ok z ∧ ⟨downRevision r,z.1,z.2⟩ = y := by
  unfold descend
  cases perform (downgrade r) (x.catalogue,x.contents) <;> simp [Except.map]

theorem Healthy.ascend (h : Healthy x) (hr : downRevision r = x.version)
    (hy : Installations.ascend v x r = .ok y) : Healthy y ∧ y.version = some r := by
  obtain ⟨z,hrun,rfl⟩ := ascend_ok.mp hy
  refine ⟨⟨known_of_perform h.known (fun marked wide => ?_) hrun,admits_perform h.admitted hrun⟩,rfl⟩
  rw [alterEach_plain, ← hr]
  exact (ascend_catalogue r (mem_revisions r) marked wide).1

theorem Healthy.descend (h : Healthy x) (hr : x.version = some r)
    (hy : Installations.descend x r = .ok y) : Healthy y ∧ y.version = downRevision r := by
  obtain ⟨z,hrun,rfl⟩ := descend_ok.mp hy
  refine ⟨⟨known_of_perform h.known (fun marked wide => ?_) hrun,admits_perform h.admitted hrun⟩,rfl⟩
  rw [hr]
  exact (descend_catalogue r (mem_revisions r) marked wide).1

/-- A downgrade by one revision never fails. -/
theorem descend_succeeds (h : Healthy x) (hr : x.version = some r) : ∃ y, descend x r = .ok y := by
  have hk := h.known
  rw [hr] at hk
  obtain ⟨z,hz⟩ := (perform_known_iff hk
    (fun marked wide => (descend_catalogue r (mem_revisions r) marked wide).2)).mpr
    (perform_downgrade (admits_of_known hk h.admitted))
  exact ⟨_,descend_ok.mpr ⟨z,hz,rfl⟩⟩

theorem downRevision_eq_none : downRevision r = none ↔ r = .r2504b99774c5 := by
  cases r <;> simp [downRevision]

theorem ascend_some : (∃ y, ascend v x r = .ok y) ↔
    ∃ z, perform (plain (upgrade v r)) (x.catalogue,x.contents) = .ok z := by
  simp only [ascend_ok]
  exact ⟨fun ⟨_,z,hz,_⟩ => ⟨z,hz⟩,fun ⟨z,hz⟩ => ⟨_,z,hz,rfl⟩⟩

theorem catalogue_base : leftover.types.isEmpty = false ∧
    alterEach (plain (upgrade still .r2504b99774c5)) leftover = none := by
  decide

/-- On a database without tables only types that were left behind can be in
the way. -/
theorem ascend_base (h : Healthy x) (hx : x.version = none) :
    (∃ y, ascend v x .r2504b99774c5 = .ok y) ↔ x.catalogue.types = [] := by
  have hk := h.known
  rw [hx] at hk
  obtain ⟨marked,wide,hs⟩ := hk
  obtain ⟨htypes,hnone⟩ := catalogue_base
  rw [ascend_some]
  cases marked with
  | false =>
    have ht : x.catalogue.types = [] := hs.types.eq_nil
    obtain ⟨d',hrun⟩ : ∃ d', perform (plain (upgrade v .r2504b99774c5)) (.empty,x.contents) =
        .ok (schemaAt .r2504b99774c5,d') := perform_of_unchecked rfl rfl
    obtain ⟨u,hu,-⟩ := hs.symm.perform hrun
    exact iff_of_true ⟨_,hu⟩ ht
  | true =>
    refine iff_of_false ?_ (fun ht => ?_)
    · rintro ⟨z,hz⟩
      obtain ⟨u,hu,-⟩ := hs.alterEach (alterEach_of_perform hz)
      rw [alterEach_plain] at hu
      have hu : alterEach (plain (upgrade still .r2504b99774c5)) leftover = some u := hu
      rw [hnone] at hu
      cases hu
    · have hs : x.catalogue.types.Perm leftover.types := hs.types
      rw [ht] at hs
      rw [hs.symm.eq_nil] at htypes
      cases htypes

/-- When an upgrade by one revision succeeds. -/
theorem ascend_succeeds_iff (h : Healthy x) (hr : downRevision r = x.version) :
    (∃ y, ascend v x r = .ok y) ↔ (r = .r2504b99774c5 → x.catalogue.types = []) ∧
      (r = .r3c12203559ad → NoRivals x.contents) := by
  cases hp : x.version with
  | none =>
    obtain rfl := downRevision_eq_none.mp (hr.trans hp)
    rw [ascend_base h hp]
    simp
  | some p =>
    have hk := h.known
    rw [hp] at hk hr
    have hne : r ≠ .r2504b99774c5 := fun he => by
      rw [downRevision_eq_none.mpr he] at hr
      cases hr
    have hall : ∀ marked wide,
        (alterEach (plain (upgrade v r)) (catalogueAt marked wide (some p))).isSome = true := by
      intro marked wide
      have ha := (ascend_catalogue r (mem_revisions r) marked wide).2
      rw [hr, ← alterEach_plain v] at ha
      simpa using ha
    rw [ascend_some, perform_known_iff hk hall, perform_upgrade hr (admits_of_known hk h.admitted)]
    exact ⟨fun hn => ⟨fun he => absurd he hne,hn⟩,And.right⟩

def Carried (emptied : Bool) (t : TableName) (rows rows' : List Record) : Prop :=
  if emptied then rows' = [] else List.Forall₂ (Kept t) rows rows'

theorem Carried.trans {e e' : Bool} {t : TableName} {a b c : List Record} (h : Carried e t a b)
    (h' : Carried e' t b c) : Carried (e || e') t a c := by
  cases e' with
  | true => simpa [Carried] using h'
  | false =>
    cases e with
    | true =>
      obtain rfl : b = [] := h
      exact List.forall₂_nil_left_iff.mp h'
    | false => exact forall₂_trans (R := Kept t) (fun _ _ _ => Kept.trans) h h'

theorem carried_ascend (h : Healthy x) (hr : downRevision r = x.version) (hy : ascend v x r = .ok y)
    (t : TableName) : Carried (decide (r ∈ purged t)) t (x.contents t) (y.contents t) := by
  obtain ⟨z,hrun,rfl⟩ := ascend_ok.mp hy
  have hrows := rows_ascend (hr ▸ h.known) hrun t
  simpa [Carried] using hrows

theorem carried_descend (h : Healthy x) (hr : x.version = some r) (hy : descend x r = .ok y)
    (t : TableName) : Carried (decide (r ∈ purged t ∨ downRevision r = none)) t (x.contents t)
      (y.contents t) := by
  obtain ⟨z,hrun,rfl⟩ := descend_ok.mp hy
  have hrows := rows_descend (hr ▸ h.known) hrun t
  simpa [Carried] using hrows

def climbs : Option Revision → List Revision → Bool
  | _, [] => true
  | p, r::rs => downRevision r = p && climbs (some r) rs

def falls : Option Revision → List Revision → Bool
  | _, [] => true
  | p, r::rs => p = some r && falls (downRevision r) rs

def versions : List (Option Revision) := none::revisions.map some

theorem mem_versions (p : Option Revision) : p ∈ versions := by
  cases p with
  | none => exact List.mem_cons_self
  | some r => exact List.mem_cons_of_mem _ (List.mem_map_of_mem (mem_revisions r))

theorem climbs_steps : ∀ p ∈ versions, ∀ target ∈ revisions,
    climbs p ((Order.upgrade target).steps p) = true := by
  decide

theorem falls_steps : ∀ p ∈ versions, ∀ target ∈ versions,
    falls p ((Order.downgrade target).steps p) = true := by
  decide

theorem remaining_next : ∀ r ∈ revisions, ∀ r' ∈ revisions, downRevision r' = some r →
    remaining r = r'::remaining r' := by
  decide

/-- Upgrades never come back to a revision. -/
theorem mem_remaining (hc : climbs (some r) rs = true) : ∀ r' ∈ rs, r' ∈ remaining r := by
  induction rs generalizing r with
  | nil => exact fun _ hr => absurd hr List.not_mem_nil
  | cons r₁ rs ih =>
    simp only [climbs, Bool.and_eq_true, decide_eq_true_eq] at hc
    rw [remaining_next r (mem_revisions r) r₁ (mem_revisions r₁) hc.1]
    exact List.forall_mem_cons.mpr
      ⟨List.mem_cons_self,fun r' hr => List.mem_cons_of_mem _ (ih hc.2 r' hr)⟩

theorem foldlM_ok {f : Installation → Revision → Except Failure Installation} :
    (r::rs).foldlM f x = .ok y ↔ ∃ z, f x r = .ok z ∧ rs.foldlM f z = .ok y := by
  rw [List.foldlM_cons]
  cases hz : f x r with
  | error e => exact iff_of_false nofun nofun
  | ok z => exact ⟨fun h => ⟨z,rfl,h⟩,fun ⟨_,hz,h⟩ => Except.ok.inj hz ▸ h⟩

/-- Consecutive upgrades. -/
theorem climb (h : Healthy x) (hc : climbs x.version rs = true) (hy : rs.foldlM (ascend v) x = .ok y) :
    Healthy y ∧ ∀ t, Carried (rs.any (· ∈ purged t)) t (x.contents t) (y.contents t) := by
  induction rs generalizing x with
  | nil =>
    cases hy
    exact ⟨h,fun t => List.forall₂_same.mpr (fun row _ => Kept.refl t row)⟩
  | cons r rs ih =>
    simp only [climbs, Bool.and_eq_true, decide_eq_true_eq] at hc
    obtain ⟨z,hz,hy⟩ := foldlM_ok.mp hy
    obtain ⟨hz',hversion⟩ := h.ascend hc.1 hz
    obtain ⟨hy',hrows⟩ := ih hz' (hversion ▸ hc.2) hy
    exact ⟨hy',fun t => (carried_ascend h hc.1 hz t).trans (hrows t)⟩

/-- Consecutive downgrades. -/
theorem fall (h : Healthy x) (hc : falls x.version rs = true) (hy : rs.foldlM descend x = .ok y) :
    Healthy y ∧ ∀ t, Carried (rs.any (fun r => r ∈ purged t ∨ downRevision r = none)) t
      (x.contents t) (y.contents t) := by
  induction rs generalizing x with
  | nil =>
    cases hy
    exact ⟨h,fun t => List.forall₂_same.mpr (fun row _ => Kept.refl t row)⟩
  | cons r rs ih =>
    simp only [falls, Bool.and_eq_true, decide_eq_true_eq] at hc
    obtain ⟨z,hz,hy⟩ := foldlM_ok.mp hy
    obtain ⟨hz',hversion⟩ := h.descend hc.1 hz
    obtain ⟨hy',hrows⟩ := ih hz' (hversion ▸ hc.2) hy
    exact ⟨hy',fun t => (carried_descend h hc.1 hz t).trans (hrows t)⟩

theorem fall_succeeds (h : Healthy x) (hc : falls x.version rs = true) :
    ∃ y, rs.foldlM descend x = .ok y := by
  induction rs generalizing x with
  | nil => exact ⟨x,rfl⟩
  | cons r rs ih =>
    simp only [falls, Bool.and_eq_true, decide_eq_true_eq] at hc
    obtain ⟨z,hz⟩ := descend_succeeds h hc.1
    obtain ⟨hz',hversion⟩ := h.descend hc.1 hz
    obtain ⟨y,hy⟩ := ih hz' (hversion ▸ hc.2)
    exact ⟨y,foldlM_ok.mpr ⟨z,hz,hy⟩⟩

theorem remaining_facts : ∀ r ∈ revisions, .r2504b99774c5 ∉ remaining r ∧
    (.r3c12203559ad ∈ remaining r → r ∉ purged .jobs) := by
  decide

/-- The jobs that the index is built on are those before the upgrades, up to
what migrations may change. -/
theorem climb_succeeds_iff (h : Healthy x) (hc : climbs x.version rs = true) :
    (∃ y, rs.foldlM (ascend v) x = .ok y) ↔ (.r2504b99774c5 ∈ rs → x.catalogue.types = []) ∧
      (.r3c12203559ad ∈ rs → NoRivals x.contents) := by
  induction rs generalizing x with
  | nil => simp [pure, Except.pure]
  | cons r rs ih =>
    simp only [climbs, Bool.and_eq_true, decide_eq_true_eq] at hc
    have hhead := ascend_succeeds_iff (v := v) h hc.1
    obtain ⟨hinitial,hjobs⟩ := remaining_facts r (mem_revisions r)
    have hinitial : .r2504b99774c5 ∉ rs := fun hm => hinitial (mem_remaining hc.2 _ hm)
    have htail : ∀ z, ascend v x r = .ok z →
        ((∃ y, rs.foldlM (ascend v) z = .ok y) ↔ (.r3c12203559ad ∈ rs → NoRivals x.contents)) := by
      intro z hz
      obtain ⟨hz',hversion⟩ := h.ascend hc.1 hz
      rw [ih hz' (hversion ▸ hc.2), and_iff_right (fun hm => absurd hm hinitial)]
      refine forall_congr' fun hm => ?_
      have hrows := carried_ascend h hc.1 hz .jobs
      rw [decide_eq_false (hjobs (mem_remaining hc.2 _ hm))] at hrows
      exact (noRivals_kept hrows).symm
    constructor
    · rintro ⟨y,hy⟩
      obtain ⟨z,hz,hy⟩ := foldlM_ok.mp hy
      obtain ⟨htypes,hrivals⟩ := hhead.mp ⟨z,hz⟩
      refine ⟨fun hm => ?_,fun hm => ?_⟩
      · exact htypes ((List.mem_cons.mp hm).resolve_right hinitial).symm
      · rcases List.mem_cons.mp hm with hm | hm
        · exact hrivals hm.symm
        · exact (htail z hz).mp ⟨y,hy⟩ hm
    · rintro ⟨htypes,hrivals⟩
      obtain ⟨z,hz⟩ := hhead.mpr ⟨fun hm => htypes (hm ▸ List.mem_cons_self),
        fun hm => hrivals (hm ▸ List.mem_cons_self)⟩
      obtain ⟨y,hy⟩ := (htail z hz).mpr (fun hm => hrivals (List.mem_cons_of_mem _ hm))
      exact ⟨y,foldlM_ok.mpr ⟨z,hz,hy⟩⟩

end Orders

section Runs

variable {v : Volatile} {o : Order} {x y : Installation}

def Order.Ready (x : Installation) : Order → Prop
  | .upgrade target =>
      (.r2504b99774c5 ∈ (Order.upgrade target).steps x.version → x.catalogue.types = []) ∧
      (.r3c12203559ad ∈ (Order.upgrade target).steps x.version → NoRivals x.contents)
  | .downgrade target => atMost target x.version = true

instance : Decidable (o.Ready x) :=
  match o with
  | .upgrade _ => inferInstanceAs (Decidable (_ ∧ _))
  | .downgrade _ => inferInstanceAs (Decidable (_ = true))

def Order.arrival (version : Option Revision) : Order → Option Revision
  | .upgrade target => if atMost version (some target) then some target else version
  | .downgrade target => target

def Order.empties (version : Option Revision) (t : TableName) : Order → Bool
  | .upgrade target => ((Order.upgrade target).steps version).any (· ∈ purged t)
  | .downgrade target => ((Order.downgrade target).steps version).any
      (fun r => r ∈ purged t ∨ downRevision r = none)

theorem mapError_ok {e : Except Failure Installation} :
    e.mapError Refusal.migration = .ok y ↔ e = .ok y := by
  cases e <;> simp [Except.mapError]

theorem upgrade_ok {target : Revision} : invoke v (.upgrade target) x = .ok y ↔
    ((Order.upgrade target).steps x.version).foldlM (ascend v) x = .ok y := mapError_ok

theorem downgrade_ok {target : Option Revision} : invoke v (.downgrade target) x = .ok y ↔
    atMost target x.version = true ∧
      ((Order.downgrade target).steps x.version).foldlM descend x = .ok y := by
  rw [invoke]
  by_cases h : atMost target x.version = true
  · rw [if_pos h, mapError_ok, and_iff_right h]
  · rw [if_neg h]
    exact iff_of_false nofun fun hy => h hy.1

theorem invoke_ok (h : Healthy x) (hy : invoke v o x = .ok y) : Healthy y ∧
    ∀ t, Carried (o.empties x.version t) t (x.contents t) (y.contents t) := by
  cases o with
  | upgrade target =>
    exact climb h (climbs_steps _ (mem_versions _) _ (mem_revisions target)) (upgrade_ok.mp hy)
  | downgrade target =>
    exact fall h (falls_steps _ (mem_versions _) _ (mem_versions target)) (downgrade_ok.mp hy).2

theorem invoke_succeeds_iff (h : Healthy x) : (∃ y, invoke v o x = .ok y) ↔ o.Ready x := by
  cases o with
  | upgrade target =>
    simp only [upgrade_ok]
    exact climb_succeeds_iff h (climbs_steps _ (mem_versions _) _ (mem_revisions target))
  | downgrade target =>
    simp only [downgrade_ok, exists_and_left]
    exact and_iff_left
      (fall_succeeds h (falls_steps _ (mem_versions _) _ (mem_versions target)))

theorem arrival_steps : ∀ p ∈ versions, (∀ target ∈ revisions,
      ((Order.upgrade target).steps p).foldl (fun _ r => some r) p = (Order.upgrade target).arrival p) ∧
    ∀ target ∈ versions, atMost target p = true →
      ((Order.downgrade target).steps p).foldl (fun _ r => downRevision r) p = target := by
  decide

theorem foldlM_version {f : Installation → Revision → Except Failure Installation}
    {g : Revision → Option Revision} (hf : ∀ x r z, f x r = .ok z → z.version = g r)
    {rs : List Revision} (hy : rs.foldlM f x = .ok y) :
    y.version = rs.foldl (fun _ r => g r) x.version := by
  induction rs generalizing x with
  | nil =>
    cases hy
    rfl
  | cons r rs ih =>
    obtain ⟨z,hz,hy⟩ := foldlM_ok.mp hy
    rw [ih hy, hf x r z hz, List.foldl_cons]

theorem invoke_version (hy : invoke v o x = .ok y) : y.version = o.arrival x.version := by
  obtain ⟨hup,hdown⟩ := arrival_steps x.version (mem_versions _)
  cases o with
  | upgrade target =>
    rw [← hup target (mem_revisions target)]
    refine foldlM_version (fun x r z hz => ?_) (upgrade_ok.mp hy)
    obtain ⟨w,-,rfl⟩ := ascend_ok.mp hz
    rfl
  | downgrade target =>
    obtain ⟨hmost,hy⟩ := downgrade_ok.mp hy
    refine (foldlM_version (fun x r z hz => ?_) hy).trans (hdown target (mem_versions target) hmost)
    obtain ⟨w,-,rfl⟩ := descend_ok.mp hz
    rfl

theorem healthy_fresh : Healthy fresh :=
  ⟨⟨false,false,.refl _⟩,⟨fun _ _ => rfl,fun _ hc => absurd hc List.not_mem_nil,
    fun _ hu => absurd hu List.not_mem_nil,fun _ hk => absurd hk List.not_mem_nil⟩⟩

theorem Healthy.step {e : Event} (h : Healthy x) (hs : Installations.step x e = some y) : Healthy y := by
  cases e with
  | alembic v o =>
    cases hs
    cases hy : invoke v o x with
    | error e => exact h
    | ok y => exact (invoke_ok h hy).1
  | write d =>
    simp only [Installations.step, Option.ite_none_right_eq_some] at hs
    obtain ⟨hd,hs⟩ := hs
    cases hs
    exact ⟨h.known,hd⟩

theorem healthy_of_reachable (hr : Reachable step fresh x) : Healthy x :=
  hr.invariant healthy_fresh (fun _ _ _ _ h hs => h.step hs)

def after (es : List Event) : Installation := (run step fresh es).getD fresh

-- a head that was left and reached again
def roundTrip : List Event :=
  [.alembic still (.upgrade head),.alembic still (.downgrade (some .rc3890ddba5ac)),
    .alembic still (.upgrade head)]

-- a database without the index on active jobs
def unindexedWith (d : Contents) : List Event :=
  [.alembic still (.upgrade .rc3890ddba5ac),.write d]

theorem sample_runs : ((run step fresh roundTrip).isSome = true ∧
      (after roundTrip).version = some head) ∧
    ((run step fresh (unindexedWith rivals)).isSome = true ∧
      ¬ (Order.upgrade head).Ready (after (unindexedWith rivals))) ∧
    (run step fresh (unindexedWith busy)).isSome = true ∧
    (after (unindexedWith busy)).version = some .rc3890ddba5ac ∧
    (Order.upgrade .r29e93f1a2527).Ready (after (unindexedWith busy)) ∧
    ¬ (Order.downgrade (some head)).Ready (after (unindexedWith busy)) := by
  decide +kernel

/-- No history of upgrades and downgrades makes the schema drift further than
their marks: the rows obey a known catalogue of the version, at head the one of
the upgrades alone. -/
theorem schema_never_drifts (hr : Reachable step fresh x) :
    Known x.version x.catalogue ∧ Admits x.catalogue x.contents ∧
      (x.version = some head → x.catalogue.Same (schemaAt head)) := by
  have h := healthy_of_reachable hr
  refine ⟨h.known,h.admitted,fun hx => ?_⟩
  have hhead : ∀ marked wide, catalogueAt marked wide (some head) = schemaAt head := by decide
  obtain ⟨marked,wide,hs⟩ := h.known
  rw [hx, hhead] at hs
  exact hs

theorem schema_never_drifts_sample : (after roundTrip).catalogue.Same (schemaAt head) := by
  obtain ⟨⟨hrun,hhead⟩,-⟩ := sample_runs
  exact (schema_never_drifts (reachable_of_run _ hrun)).2.2 hhead

/-- A downgrade succeeds unless its target lies above. An upgrade succeeds
unless it starts at a base with types left over, or builds the index on jobs
that are rivals. -/
theorem order_succeeds_iff (v : Volatile) (o : Order) (hr : Reachable step fresh x) :
    (∃ y, invoke v o x = .ok y ∧ y.version = o.arrival x.version) ↔ o.Ready x := by
  rw [← invoke_succeeds_iff (v := v) (healthy_of_reachable hr)]
  exact ⟨fun ⟨y,hy,_⟩ => ⟨y,hy⟩,fun ⟨y,hy⟩ => ⟨y,hy,invoke_version hy⟩⟩

theorem order_succeeds_iff_sample :
    (∃ y, invoke still (.upgrade .r29e93f1a2527) (after (unindexedWith busy)) = .ok y ∧
      y.version = (Order.upgrade .r29e93f1a2527).arrival (after (unindexedWith busy)).version) ∧
    (¬ ∃ y, invoke still (.upgrade head) (after (unindexedWith rivals)) = .ok y ∧
      y.version = (Order.upgrade head).arrival (after (unindexedWith rivals)).version) ∧
    ¬ ∃ y, invoke still (.downgrade (some head)) (after (unindexedWith busy)) = .ok y ∧
      y.version = (Order.downgrade (some head)).arrival (after (unindexedWith busy)).version := by
  obtain ⟨-,⟨hrivals,hstuck⟩,hbusy,-,hready,habove⟩ := sample_runs
  have hr : Reachable step fresh (after (unindexedWith busy)) := reachable_of_run _ hbusy
  exact ⟨(order_succeeds_iff still (.upgrade .r29e93f1a2527) hr).mpr hready,
    (order_succeeds_iff still (.upgrade head) (reachable_of_run _ hrivals)).not.mpr hstuck,
    (order_succeeds_iff still (.downgrade (some head)) hr).not.mpr habove⟩

/-- What an order does to the rows: a table is emptied, or all its rows are
there in their order, changed only in the columns that migrations overwrite. -/
theorem order_rows (hr : Reachable step fresh x) (hy : invoke v o x = .ok y) (t : TableName) :
    if o.empties x.version t then y.contents t = []
    else List.Forall₂ (Kept t) (x.contents t) (y.contents t) :=
  (invoke_ok (healthy_of_reachable hr) hy).2 t

theorem order_rows_sample : ∃ y,
    invoke still (.upgrade .r29e93f1a2527) (after (unindexedWith busy)) = .ok y ∧
      List.Forall₂ (Kept .jobs) ((after (unindexedWith busy)).contents .jobs) (y.contents .jobs) := by
  obtain ⟨-,-,hrun,hversion,hready,-⟩ := sample_runs
  have hr : Reachable step fresh (after (unindexedWith busy)) := reachable_of_run _ hrun
  obtain ⟨y,hy⟩ := (invoke_succeeds_iff (v := still) (healthy_of_reachable hr)).mpr hready
  refine ⟨y,hy,?_⟩
  have hrows := order_rows hr hy .jobs
  rw [hversion] at hrows
  exact hrows

end Runs

section Base

variable {v : Volatile} {r : Revision} {x y z : Installation} {rs : List Revision}

def TornDown (x : Installation) : Prop := x.version = none ∧ x.catalogue.types ≠ []

theorem catalogue_torn : ∀ marked wide : Bool,
    (alterEach (downgrade .r2504b99774c5) (catalogueAt marked wide (some .r2504b99774c5))).all
      (fun u => !u.types.isEmpty) = true := by
  decide

theorem tornDown_descend (h : Healthy x) (hr : x.version = some r) (hy : descend x r = .ok y)
    (hbase : y.version = none) : TornDown y := by
  refine ⟨hbase,?_⟩
  rw [(h.descend hr hy).2, downRevision_eq_none] at hbase
  subst hbase
  obtain ⟨w,hw,rfl⟩ := descend_ok.mp hy
  obtain ⟨marked,wide,hs⟩ := h.known
  rw [hr] at hs
  obtain ⟨u,hu,hsame⟩ := hs.alterEach (alterEach_of_perform hw)
  have ht := catalogue_torn marked wide
  rw [hu, Option.all_some] at ht
  intro he
  have hperm : w.1.types.Perm u.types := hsame.types
  rw [he] at hperm
  rw [hperm.symm.eq_nil] at ht
  cases ht

theorem tornDown_fall (h : Healthy x) (hx : x.version ≠ none) (hc : falls x.version rs = true)
    (hy : rs.foldlM descend x = .ok y) (hbase : y.version = none) : TornDown y := by
  induction rs generalizing x with
  | nil =>
    cases hy
    exact absurd hbase hx
  | cons r rs ih =>
    simp only [falls, Bool.and_eq_true, decide_eq_true_eq] at hc
    obtain ⟨z,hz,hy⟩ := foldlM_ok.mp hy
    obtain ⟨hz',hversion⟩ := h.descend hc.1 hz
    cases hzv : z.version with
    | some p => exact ih hz' (by rw [hzv]; nofun) (hversion ▸ hc.2) hy
    | none =>
      have htorn := tornDown_descend h hc.1 hz hzv
      cases rs with
      | nil =>
        cases hy
        exact htorn
      | cons r' rs =>
        rw [← hversion, hzv] at hc
        simp [falls] at hc

theorem invoke_base (hx : x.version = none) (target : Option Revision) :
    (invoke v (.downgrade target) x).toOption.getD x = x := by
  have hsteps : (Order.downgrade target).steps x.version = [] := by
    simp [Order.steps, hx, applied]
  rw [invoke]
  split
  · rw [hsteps]
    rfl
  · rfl

/-- No upgrade succeeds where types are left over. -/
theorem TornDown.refuses (hx : TornDown x) (h : Healthy x) (target : Revision) :
    ¬ ∃ y, invoke v (.upgrade target) x = .ok y := by
  rw [invoke_succeeds_iff h]
  rintro ⟨htypes,-⟩
  refine hx.2 (htypes ?_)
  rw [hx.1]
  cases target <;> decide

theorem TornDown.empty (hx : TornDown x) (h : Healthy x) (t : TableName) : x.contents t = [] := by
  obtain ⟨marked,wide,hs⟩ := h.known
  rw [hx.1] at hs
  refine h.admitted.tables t ((hs.hasTable t).trans ?_)
  cases marked <;> cases wide <;> cases t <;> decide

/-- Nothing leads out of a base that a downgrade has left. -/
theorem TornDown.step {e : Event} (h : Healthy x) (hx : TornDown x)
    (hs : Installations.step x e = some y) : TornDown y := by
  cases e with
  | write d =>
    simp only [Installations.step, Option.ite_none_right_eq_some] at hs
    obtain ⟨-,hs⟩ := hs
    cases hs
    exact hx
  | alembic v o =>
    cases hs
    cases o with
    | upgrade target =>
      cases hy : invoke v (.upgrade target) x with
      | error e => exact hx
      | ok y => exact absurd ⟨y,hy⟩ (hx.refuses h target)
    | downgrade target =>
      rw [invoke_base hx.1]
      exact hx

/-- A downgrade to base is final: in every continuation the database stays
without tables and rows, and no upgrade succeeds. -/
theorem base_is_final (hr : Reachable Installations.step fresh x) (hx : x.version ≠ none)
    (hy : invoke v (.downgrade none) x = .ok y) {t : List (Installation × Event)}
    (ht : Trail Installations.step y t z) : z.version = none ∧ (∀ t, z.contents t = []) ∧
      ∀ w target, ¬ ∃ u, invoke w (.upgrade target) z = .ok u := by
  have h := healthy_of_reachable hr
  have hbase : y.version = none := invoke_version hy
  have htorn := tornDown_fall h hx (falls_steps _ (mem_versions _) _ (mem_versions none))
    (downgrade_ok.mp hy).2 hbase
  have hinv : Healthy z ∧ TornDown z := by
    induction ht with
    | start => exact ⟨(invoke_ok h hy).1,htorn⟩
    | next _ hs ih => exact ⟨ih.1.step hs,ih.2.step ih.1 hs⟩
  exact ⟨hinv.2.1,hinv.2.empty hinv.1,fun w target => hinv.2.refuses hinv.1 target⟩

theorem base_is_final_sample : ∃ y, invoke still (.downgrade none) (after roundTrip) = .ok y ∧
    ∀ target, ¬ ∃ u, invoke still (.upgrade target) y = .ok u := by
  obtain ⟨⟨hrun,hhead⟩,-⟩ := sample_runs
  have hr : Reachable step fresh (after roundTrip) := reachable_of_run _ hrun
  have hready : (Order.downgrade none).Ready (after roundTrip) := decide_eq_true (Nat.zero_le _)
  obtain ⟨y,hy⟩ := (invoke_succeeds_iff (v := still) (healthy_of_reachable hr)).mpr hready
  have hne : (after roundTrip).version ≠ none := by
    rw [hhead]
    nofun
  exact ⟨y,hy,(base_is_final hr hne hy .start).2.2 still⟩

end Base

end DocPipeline.Installations
