import DocPipeline.Transactions
import DocPipeline.Library.Isolation

/-!
# Statements that wait for their commit

Row locks, the unique index and fresh identifiers keep the open transactions
apart. So when a transaction commits, the row it updates is still the one it
read, and the rows it inserts are still new to the tables and to the index.
-/

set_option autoImplicit false

namespace DocPipeline.Pending
open DocPipeline.Identifiers DocPipeline.Records DocPipeline.Database DocPipeline.Calls
open DocPipeline.Consumer DocPipeline.Routes DocPipeline.System DocPipeline.Effects
open DocPipeline.Moves DocPipeline.Answers DocPipeline.Transactions
open KeyedTable LabelledRuns EffectProgram OpenTransactions

def edge : JobStatus → JobStatus → Bool
  | .queued, .started => true
  | .started, .completed => true
  | .started, .failed => true
  | .started, .queued => true
  | _, _ => false

theorem active_of_edge {a b : JobStatus} (h : edge a b = true) : a.active = true := by
  cases a <;> cases b <;> first | rfl | cases h

structure Replaces (old new : JobRow) : Prop where
  edge : edge old.status new.status = true
  id : new.id = old.id
  account : new.accountId = old.accountId
  document : new.documentId = old.documentId
  budget : new.maxAttempts = old.maxAttempts
  attempts : new.attempts = if new.status = .started then old.attempts+1 else old.attempts

theorem Replaces.attempts_le {old new : JobRow} (h : Replaces old new) :
    old.attempts ≤ new.attempts := by
  rw [h.attempts]
  split <;> omega

theorem replaces_updated {old : JobRow} {status : JobStatus} (err : Option String)
    (now again : Time) (h : edge old.status status = true) :
    Replaces old (updated status err now again old) := by
  constructor <;> simp [h]

theorem noActive_iff {db : Tables} {account : AccountId} {document : Uuid} :
    db.activeJobExists account document = false ↔ ∀ id r, db.jobs.get id = some r →
      r.status.active = true → r.accountId = account → r.documentId ≠ document := by
  rw [← Bool.not_eq_true, activeJobExists_iff]
  constructor
  · intro h id r hr ha hacc hd
    exact h ⟨r,Table.mem_of_get hr,ha,hacc,hd⟩
  · rintro h ⟨r,hr,ha,hacc,hd⟩
    exact h r.id r (Table.get_of_mem hr) ha hacc hd

def Ready (db : Tables) : Write → Prop
  | .insertDocument row => db.documents.get row.id = none
  | .insertJob row => db.jobs.get row.id = none ∧
      db.activeJobExists row.accountId row.documentId = false
  | .updateJob old new => db.jobs.get old.id = some old ∧ Replaces old new
  | .upsertArtifact _ => True

def Apart : Write → Write → Prop
  | .insertDocument a, .insertDocument b => a.id ≠ b.id
  | .insertJob a, .insertJob b => a.id ≠ b.id ∧
      ¬ (a.accountId = b.accountId ∧ a.documentId = b.documentId)
  | .updateJob a _, .updateJob b _ => a.id ≠ b.id
  | _, _ => True

theorem apart_symm {w v : Write} (h : Apart w v) : Apart v w := by
  cases w <;> cases v <;> first | trivial | exact Ne.symm h | skip
  exact ⟨Ne.symm h.1,fun ⟨ha,hd⟩ => h.2 ⟨ha.symm,hd.symm⟩⟩

theorem ready_after_insertJob {db : Tables} {row : JobRow} {v : Write}
    (hw : Ready db (.insertJob row)) (hv : Ready db v) (ha : Apart (.insertJob row) v) :
    Ready (Write.apply db (.insertJob row)) v := by
  cases v with
  | insertDocument b => exact hv
  | upsertArtifact a => trivial
  | updateJob old new => exact ⟨Table.get_insert_of_some hv.1,hv.2⟩
  | insertJob b =>
    have hget := Table.get_insert hw.1
    refine ⟨(hget b.id).trans (by rw [if_neg ha.1]; exact hv.1),noActive_iff.mpr ?_⟩
    intro id r hr hact hacc hdoc
    rw [show (Write.apply db (.insertJob row)).jobs = db.jobs.insert row from rfl, hget id] at hr
    split at hr
    · obtain rfl := Option.some.inj hr
      exact ha.2 ⟨hacc,hdoc⟩
    · exact noActive_iff.mp hv.2 id r hr hact hacc hdoc

theorem ready_after_updateJob {db : Tables} {old new : JobRow} {v : Write}
    (hw : Ready db (.updateJob old new)) (hv : Ready db v) (ha : Apart (.updateJob old new) v) :
    Ready (Write.apply db (.updateJob old new)) v := by
  have hget := Table.get_put db.jobs new
  have hjobs : (Write.apply db (.updateJob old new)).jobs = db.jobs.put new := rfl
  cases v with
  | insertDocument b => exact hv
  | upsertArtifact a => trivial
  | updateJob old' new' =>
    refine ⟨?_,hv.2⟩
    have hne : new.id ≠ old'.id := by
      rw [hw.2.id]
      exact ha
    rw [hjobs, hget, if_neg hne]
    exact hv.1
  | insertJob b =>
    refine ⟨?_,noActive_iff.mpr ?_⟩
    · rw [hjobs, hget, hv.1]
      split <;> rfl
    · intro id r hr hact hacc hdoc
      rw [hjobs, hget id] at hr
      split at hr
      · obtain ⟨x,-,rfl⟩ := Option.map_eq_some_iff.mp hr
        have ho := noActive_iff.mp hv.2 old.id old hw.1 (active_of_edge hw.2.edge)
        exact ho (hw.2.account.symm.trans hacc) (hw.2.document.symm.trans hdoc)
      · exact noActive_iff.mp hv.2 id r hr hact hacc hdoc

theorem ready_after {db : Tables} {w v : Write} (hw : Ready db w) (hv : Ready db v)
    (ha : Apart w v) : Ready (Write.apply db w) v := by
  cases w with
  | insertJob row => exact ready_after_insertJob hw hv ha
  | updateJob old new => exact ready_after_updateJob hw hv ha
  | upsertArtifact a => cases v <;> exact hv
  | insertDocument row =>
    cases v with
    | insertDocument b =>
      refine (Table.get_insert hw b.id).trans ?_
      rw [if_neg ha]
      exact hv
    | _ => exact hv

def rules : Rules Tables Write where
  apply := Write.apply
  Ready := Ready
  Apart := Apart
  symm := apart_symm
  stable := ready_after

def newIds : Write → List Uuid
  | .insertDocument row => [row.id]
  | .insertJob row => [row.id]
  | _ => []

section Commit
variable {db : Tables}

theorem documents_foldl (ws : List Write) {id : Uuid} {row : DocumentRow}
    (h : (ws.foldl Write.apply db).documents.get id = some row) :
    db.documents.get id = some row ∨ (.insertDocument row ∈ ws ∧ row.id = id) := by
  induction ws generalizing db with
  | nil => exact Or.inl h
  | cons w ws ih =>
    rcases ih h with hw | ⟨hw,hid⟩
    · cases w with
      | insertDocument x =>
        rcases Table.get_insert_cases hw with hw | ⟨hid,rfl⟩
        · exact Or.inl hw
        · exact Or.inr ⟨List.mem_cons_self,hid⟩
      | _ => exact Or.inl hw
    · exact Or.inr ⟨List.mem_cons_of_mem _ hw,hid⟩

theorem jobs_foldl (ws : List Write) {id : Uuid} {row : JobRow}
    (h : (ws.foldl Write.apply db).jobs.get id = some row) :
    (∃ old, db.jobs.get id = some old) ∨ ∃ x, .insertJob x ∈ ws ∧ x.id = id := by
  induction ws generalizing db with
  | nil => exact Or.inl ⟨row,h⟩
  | cons w ws ih =>
    rcases ih h with ⟨old,hw⟩ | ⟨v,hv,hid⟩
    · cases w with
      | insertJob x =>
        rcases Table.get_insert_cases hw with hw | ⟨hid,-⟩
        · exact Or.inl ⟨_,hw⟩
        · exact Or.inr ⟨x,List.mem_cons_self,hid⟩
      | updateJob old new =>
        have hw : (db.jobs.put new).get id = some _ := hw
        rw [Table.get_put] at hw
        split at hw
        · obtain ⟨x,hx,-⟩ := Option.map_eq_some_iff.mp hw
          exact Or.inl ⟨x,hx⟩
        · exact Or.inl ⟨_,hw⟩
      | _ => exact Or.inl ⟨_,hw⟩
    · exact Or.inr ⟨v,List.mem_cons_of_mem _ hv,hid⟩

theorem documents_kept (ws : List Write) {id : Uuid} {row : DocumentRow}
    (h : db.documents.get id = some row) :
    (ws.foldl Write.apply db).documents.get id = some row := by
  induction ws generalizing db with
  | nil => exact h
  | cons w ws ih =>
    refine ih ?_
    cases w with
    | insertDocument x => exact Table.get_insert_of_some h
    | _ => exact h

variable {ws : List Write} (hown : ws.Pairwise Apart) (hready : ∀ w ∈ ws, Ready db w)
include hown hready

/-- A committed row is kept unless the transaction updates it. -/
theorem jobs_kept {id : Uuid} {row : JobRow} (hrow : db.jobs.get id = some row)
    (hno : ∀ old new, .updateJob old new ∈ ws → old.id ≠ id) :
    (ws.foldl Write.apply db).jobs.get id = some row := by
  induction ws generalizing db with
  | nil => exact hrow
  | cons w ws ih =>
    obtain ⟨hw,htail⟩ := List.pairwise_cons.mp hown
    have hr := hready w List.mem_cons_self
    refine ih htail (fun v hv => ready_after hr (hready v (List.mem_cons_of_mem _ hv)) (hw v hv)) ?_
      (fun old new hm => hno old new (List.mem_cons_of_mem _ hm))
    cases w with
    | insertJob x => exact Table.get_insert_of_some hrow
    | updateJob old new =>
      have hne : new.id ≠ id := by
        rw [hr.2.id]
        exact hno old new List.mem_cons_self
      exact (Table.get_put _ _ _).trans (by rw [if_neg hne, hrow])
    | _ => exact hrow

theorem jobs_updated {old new : JobRow} (hu : .updateJob old new ∈ ws) :
    (ws.foldl Write.apply db).jobs.get old.id = some new := by
  induction ws generalizing db with
  | nil => simp at hu
  | cons w ws ih =>
    obtain ⟨hw,htail⟩ := List.pairwise_cons.mp hown
    have hr := hready w List.mem_cons_self
    have hrest := fun v hv => ready_after hr (hready v (List.mem_cons_of_mem _ hv)) (hw v hv)
    rcases List.mem_cons.mp hu with rfl | hu
    · change (ws.foldl Write.apply (Write.apply db (.updateJob old new))).jobs.get old.id = _
      refine jobs_kept htail hrest ?_ (fun x y hx => Ne.symm (hw _ hx))
      obtain ⟨hget,hrep⟩ := hr
      refine (Table.get_put _ _ _).trans ?_
      rw [hrep.id, if_pos rfl, hget]
      rfl
    · exact ih htail hrest hu

theorem jobs_inserted {row : JobRow} (hi : .insertJob row ∈ ws) :
    (ws.foldl Write.apply db).jobs.get row.id = some row := by
  induction ws generalizing db with
  | nil => simp at hi
  | cons w ws ih =>
    obtain ⟨hw,htail⟩ := List.pairwise_cons.mp hown
    have hr := hready w List.mem_cons_self
    have hrest := fun v hv => ready_after hr (hready v (List.mem_cons_of_mem _ hv)) (hw v hv)
    rcases List.mem_cons.mp hi with rfl | hi
    · change (ws.foldl Write.apply (Write.apply db (.insertJob row))).jobs.get row.id = _
      refine jobs_kept htail hrest ?_ (fun x y hx he => ?_)
      · exact (Table.get_insert hr.1 row.id).trans (if_pos rfl)
      · have hget : db.jobs.get x.id = some x :=
          (hready (.updateJob x y) (List.mem_cons_of_mem _ hx)).1
        rw [he, hr.1] at hget
        cases hget
    · exact ih htail hrest hi

theorem documents_inserted {row : DocumentRow} (hi : .insertDocument row ∈ ws) :
    (ws.foldl Write.apply db).documents.get row.id = some row := by
  induction ws generalizing db with
  | nil => simp at hi
  | cons w ws ih =>
    obtain ⟨hw,htail⟩ := List.pairwise_cons.mp hown
    have hr := hready w List.mem_cons_self
    have hrest := fun v hv => ready_after hr (hready v (List.mem_cons_of_mem _ hv)) (hw v hv)
    rcases List.mem_cons.mp hi with rfl | hi
    · refine documents_kept ws ?_
      exact (Table.get_insert hr row.id).trans (if_pos rfl)
    · exact ih htail hrest hi

/-- Where a row of the tables after a commit comes from. -/
theorem jobs_after {id : Uuid} {row : JobRow}
    (h : (ws.foldl Write.apply db).jobs.get id = some row) :
    (db.jobs.get id = some row ∧ ∀ old new, .updateJob old new ∈ ws → old.id ≠ id) ∨
      (∃ old, .updateJob old row ∈ ws ∧ old.id = id) ∨ (.insertJob row ∈ ws ∧ row.id = id) := by
  by_cases hu : ∃ old new, .updateJob old new ∈ ws ∧ old.id = id
  · obtain ⟨old,new,hm,rfl⟩ := hu
    rw [jobs_updated hown hready hm] at h
    obtain rfl := Option.some.inj h
    exact Or.inr (Or.inl ⟨old,hm,rfl⟩)
  · have hno : ∀ old new, .updateJob old new ∈ ws → old.id ≠ id :=
      fun old new hm he => hu ⟨old,new,hm,he⟩
    rcases jobs_foldl ws h with ⟨old,hold⟩ | ⟨x,hx,rfl⟩
    · rw [jobs_kept hown hready hold hno] at h
      obtain rfl := Option.some.inj h
      exact Or.inl ⟨hold,hno⟩
    · rw [jobs_inserted hown hready hx] at h
      obtain rfl := Option.some.inj h
      exact Or.inr (Or.inr ⟨hx,rfl⟩)

/-- A committed row stays, and changes only along the state machine. -/
theorem jobs_evolve {id : Uuid} {row : JobRow} (hrow : db.jobs.get id = some row) :
    ∃ row', (ws.foldl Write.apply db).jobs.get id = some row' ∧
      (row' = row ∨ Replaces row row') := by
  by_cases hu : ∃ old new, .updateJob old new ∈ ws ∧ old.id = id
  · obtain ⟨old,new,hm,rfl⟩ := hu
    obtain ⟨hget,hrep⟩ := hready _ hm
    obtain rfl := Option.some.inj (hget.symm.trans hrow)
    exact ⟨new,jobs_updated hown hready hm,Or.inr hrep⟩
  · exact ⟨row,jobs_kept hown hready hrow (fun old new hm he => hu ⟨old,new,hm,he⟩),Or.inl rfl⟩

end Commit

end DocPipeline.Pending
