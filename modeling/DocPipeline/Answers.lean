import DocPipeline.Moves

/-!
# What a caller learns from a call

`Effect` says how a call leaves the world; here is what its answer tells the
caller about it. A successful answer comes from a call that took effect, and
only `update_status` raises the conflict exception.
-/

set_option autoImplicit false

namespace DocPipeline.Answers
open DocPipeline.Identifiers DocPipeline.Records DocPipeline.Database DocPipeline.Calls
open DocPipeline.System DocPipeline.Effects KeyedTable

variable {σ σ' : World} {p : Proc} {o : Oracle} {out : Outcome}

theorem exec_ok {c : Call} {v : c.Resp} (h : exec σ p o c out = some (.ok v,σ')) :
    out = .ok ∧ serve σ p o c = some (.ok v,σ') := by
  cases out with
  | ok => exact ⟨rfl,h⟩
  | raises f =>
    have := (Prod.mk.inj (Option.some.inj h)).1
    cases this
  | raisesAfter f =>
    simp only [exec] at h
    split at h
    · obtain ⟨x,-,he⟩ := Option.map_eq_some_iff.mp h
      have := (Prod.mk.inj he).1
      cases this
    · cases h

theorem fault_ne_conflict (c : Call) (f : Fault) : c.fault f ≠ .jobStateConflict := by
  cases f <;> cases c <;> simp [Call.fault, Call.mapped]

theorem fault_ne_notFound (c : Call) (f : Fault) : c.fault f ≠ .documentNotFound := by
  cases f <;> cases c <;> simp [Call.fault, Call.mapped]

/-- Where the error of a call comes from. -/
theorem exec_error {c : Call} {e : Exc} (h : exec σ p o c out = some (.error e,σ')) :
    (∃ f, e = c.fault f) ∨ (e = .jobStateConflict ∧
      ∃ job status expected err, c = .updateStatus job status expected err) ∨
      e = .activeJobExists ∨ e = .storage := by
  cases out with
  | raises f =>
    obtain ⟨hr,-⟩ := Prod.mk.inj (Option.some.inj h)
    exact Or.inl ⟨f,(Except.error.inj hr).symm⟩
  | raisesAfter f =>
    simp only [exec] at h
    split at h
    · obtain ⟨x,-,he⟩ := Option.map_eq_some_iff.mp h
      obtain ⟨hr,-⟩ := Prod.mk.inj he
      exact Or.inl ⟨f,(Except.error.inj hr).symm⟩
    · cases h
  | ok =>
    have h : serve σ p o c = some (.error e,σ') := h
    cases c with
    | updateStatus job status expected err =>
      refine Or.inr (Or.inl ⟨?_,_,_,_,_,rfl⟩)
      simp only [serve] at h
      split at h
      · cases h
      · split at h
        · split at h <;> cases h
          rfl
        · cases h
          rfl
    | createJob dto =>
      simp only [serve] at h
      split at h
      · cases h
      · split at h
        · cases h
          simp
        · split at h <;> cases h
    | createArtifact dto =>
      simp only [serve] at h
      split at h
      · cases h
      · split at h <;> cases h
    | getObject key =>
      simp only [serve] at h
      split at h <;> cases h
      simp
    | uuid4 =>
      simp only [serve] at h
      split at h <;> cases h
    | _ => cases h

/-- Only `update_status` raises the conflict exception. -/
theorem error_ne_conflict {c : Call} {e : Exc} (h : exec σ p o c out = some (.error e,σ'))
    (hc : ∀ job status expected err, c ≠ .updateStatus job status expected err) :
    e ≠ .jobStateConflict := by
  rcases exec_error h with ⟨f,rfl⟩ | ⟨-,job,status,expected,err,rfl⟩ | rfl | rfl
  · exact fault_ne_conflict c f
  · exact absurd rfl (hc _ _ _ _)
  · simp
  · simp

/-- No call raises `DocumentNotFoundException`: the services do. -/
theorem error_ne_notFound {c : Call} {e : Exc} (h : exec σ p o c out = some (.error e,σ')) :
    e ≠ .documentNotFound := by
  rcases exec_error h with ⟨f,rfl⟩ | ⟨rfl,-⟩ | rfl | rfl
  · exact fault_ne_notFound c f
  · simp
  · simp
  · simp

/-- The three ways `update_status` can end. -/
theorem exec_updateStatus {job : Uuid} {status expected : JobStatus} {err : Option String}
    {r : Except Exc JobRow}
    (h : exec σ p o (.updateStatus job status expected err) out = some (r,σ')) :
    (∃ old now again, out = .ok ∧ r = .ok (updated status err now again old) ∧
      σ.held p (updatesJob job) = false ∧ σ.db.jobs.get job = some old ∧
      old.status = expected ∧
      σ' = σ.addWrite p (.updateJob old (updated status err now again old))) ∨
    (out = .ok ∧ r = .error .jobStateConflict ∧ σ' = σ ∧
      ∀ old, σ.db.jobs.get job = some old → old.status ≠ expected) ∨
    ∃ f, out = .raises f ∧ r = .error (Call.fault (.updateStatus job status expected err) f) ∧
      σ' = σ.discard p := by
  cases out with
  | raises f =>
    cases h
    exact Or.inr (Or.inr ⟨f,rfl,rfl,rfl⟩)
  | raisesAfter f => cases h
  | ok =>
    simp only [exec, serve] at h
    split at h
    · cases h
    · rename_i hfree
      split at h
      · rename_i old hrow
        split at h
        · rename_i hstatus
          cases h
          exact Or.inl ⟨old,o.now,o.again,rfl,rfl,by simpa using hfree,hrow,hstatus,rfl⟩
        · rename_i hstatus
          cases h
          refine Or.inr (Or.inl ⟨rfl,rfl,rfl,fun x hx => ?_⟩)
          obtain rfl := Option.some.inj (hrow.symm.trans hx)
          exact hstatus
      · rename_i hrow
        cases h
        refine Or.inr (Or.inl ⟨rfl,rfl,rfl,fun x hx => ?_⟩)
        rw [hrow] at hx
        cases hx

theorem ok_createJob {dto : CreateJobDTO} {row : JobRow}
    (h : exec σ p o (.createJob dto) out = some (.ok row,σ')) :
    σ.held p (usesIndexEntry dto.accountId dto.documentId) = false ∧
      σ.db.activeJobExists dto.accountId dto.documentId = false ∧ row.id ∉ σ.minted ∧
      row = newJob dto o.uuid o.maxAttempts o.now o.again ∧
      σ' = { σ.addWrite p (.insertJob row) with minted := row.id::σ.minted } := by
  have h := (exec_ok h).2
  simp only [serve] at h
  split at h
  · cases h
  · rename_i hfree
    split at h
    · cases h
    · rename_i hindex
      split at h
      · cases h
      · rename_i hfresh
        cases h
        exact ⟨by simpa using hfree,by simpa using hindex,hfresh,rfl,rfl⟩

theorem ok_createArtifact {dto : CreateArtifactDTO} {row : ArtifactRow}
    (h : exec σ p o (.createArtifact dto) out = some (.ok row,σ')) :
    ∃ id now, id ∉ σ.minted ∧ σ' = { σ.addWrite p (.upsertArtifact (newArtifact dto id now)) with
      minted := id::σ.minted } := by
  have h := (exec_ok h).2
  simp only [serve] at h
  split at h
  · cases h
  · split at h
    · cases h
    · rename_i hfresh
      cases h
      exact ⟨_,_,hfresh,rfl⟩

theorem ok_createDocument {dto : CreateDocumentDTO} {row : DocumentRow}
    (h : exec σ p o (.createDocument dto) out = some (.ok row,σ')) :
    (∃ now, row = newDocument dto now) ∧ σ' = σ.addWrite p (.insertDocument row) := by
  have h := (exec_ok h).2
  cases h
  exact ⟨⟨_,rfl⟩,rfl⟩

theorem ok_uuid4 {id : Uuid} (h : exec σ p o .uuid4 out = some (.ok id,σ')) :
    id ∉ σ.minted ∧ σ' = { σ with minted := id::σ.minted } := by
  have h := (exec_ok h).2
  simp only [serve] at h
  split at h
  · cases h
  · rename_i hfresh
    cases h
    exact ⟨hfresh,rfl⟩

theorem ok_getForProcessing {job : Uuid} {row : Option JobRow}
    (h : exec σ p o (.getForProcessing job) out = some (.ok row,σ')) :
    σ.db.jobs.get job = row ∧ σ' = σ := by
  have h := (exec_ok h).2
  cases h
  exact ⟨rfl,rfl⟩

theorem ok_getDocument {id : Uuid} {account : AccountId} {row : Option DocumentRow}
    (h : exec σ p o (.getDocument id account) out = some (.ok row,σ')) :
    σ.db.getDocument id account = row ∧ σ' = σ := by
  have h := (exec_ok h).2
  cases h
  exact ⟨rfl,rfl⟩

theorem ok_objectExists {key : String} {b : Bool}
    (h : exec σ p o (.objectExists key) out = some (.ok b,σ')) :
    (σ.objects key).isSome = b ∧ σ' = σ := by
  have h := (exec_ok h).2
  cases h
  exact ⟨rfl,rfl⟩

theorem ok_putObject {key : String} {content : Bytes}
    (h : exec σ p o (.putObject key content) out = some (.ok (),σ')) :
    σ' = { σ with objects := Function.update σ.objects key (some content) } := by
  have h := (exec_ok h).2
  cases h
  rfl

end DocPipeline.Answers
