import DocPipeline.System

/-!
# What one call can change

`Effect` lists every way in which a call can leave the world, whatever its
outcome. Each part of the world is changed by few of them, so later proofs
look at the call at hand only for the part it changes.
-/

set_option autoImplicit false

namespace DocPipeline.Effects
open DocPipeline.Identifiers DocPipeline.Records DocPipeline.Database DocPipeline.Calls
open KeyedTable

inductive Effect (σ : World) (p : Proc) : Call → World → Prop
  | same (c : Call) : Effect σ p c σ
  | discard (c : Call) (hc : c.onSession) : Effect σ p c (σ.discard p)
  | update {job : Uuid} {status expected : JobStatus} {err : Option String} {old : JobRow}
      (now again : Time) (hfree : σ.held p (updatesJob job) = false)
      (hrow : σ.db.jobs.get job = some old) (hstatus : old.status = expected) :
      Effect σ p (.updateStatus job status expected err)
        (σ.addWrite p (.updateJob old (updated status err now again old)))
  | insertJob {dto : CreateJobDTO} (id : Uuid) (maxAttempts : ℕ) (now again : Time)
      (hfree : σ.held p (usesIndexEntry dto.accountId dto.documentId) = false)
      (hindex : σ.db.activeJobExists dto.accountId dto.documentId = false)
      (hfresh : id ∉ σ.minted) :
      Effect σ p (.createJob dto)
        { σ.addWrite p (.insertJob (newJob dto id maxAttempts now again)) with
          minted := id::σ.minted }
  | insertDocument {dto : CreateDocumentDTO} (now : Time) :
      Effect σ p (.createDocument dto) (σ.addWrite p (.insertDocument (newDocument dto now)))
  | upsertArtifact {dto : CreateArtifactDTO} (id : Uuid) (now : Time) (hfresh : id ∉ σ.minted) :
      Effect σ p (.createArtifact dto)
        { σ.addWrite p (.upsertArtifact (newArtifact dto id now)) with minted := id::σ.minted }
  | commit : Effect σ p .commit (σ.commit p)
  | putObject (key : String) (content : Bytes) : Effect σ p (.putObject key content)
      { σ with objects := Function.update σ.objects key (some content) }
  | enqueue (payload : Json) : Effect σ p (.enqueue payload) (σ.publish p payload)
  | ack : Effect σ p .ack (σ.settle p)
  | nack : Effect σ p .nack (σ.requeue p)
  | uuid4 (id : Uuid) (hfresh : id ∉ σ.minted) :
      Effect σ p .uuid4 { σ with minted := id::σ.minted }
  | respond (response : Response) : Effect σ p (.respond response) (σ.send p response)

variable {σ σ' : World} {p : Proc} {o : Oracle} {c : Call} {out : Outcome}
  {r : Except Exc c.Resp}

theorem serve_effect (h : serve σ p o c = some (r,σ')) : Effect σ p c σ' := by
  cases c with
  | updateStatus job status expected err =>
    simp only [serve] at h
    split at h
    · cases h
    · rename_i hfree
      split at h
      · rename_i old hrow
        split at h
        · rename_i hstatus
          cases h
          exact .update o.now o.again (by simpa using hfree) hrow hstatus
        · cases h
          exact .same _
      · cases h
        exact .same _
  | createJob dto =>
    simp only [serve] at h
    split at h
    · cases h
    · rename_i hfree
      split at h
      · cases h
        exact .discard _ rfl
      · rename_i hindex
        split at h
        · cases h
        · rename_i hfresh
          cases h
          exact .insertJob _ _ _ _ (by simpa using hfree) (by simpa using hindex) hfresh
  | createDocument dto =>
    cases h
    exact .insertDocument o.now
  | createArtifact dto =>
    simp only [serve] at h
    split at h
    · cases h
    · split at h
      · cases h
      · rename_i hfresh
        cases h
        exact .upsertArtifact _ _ hfresh
  | commit => cases h; exact .commit
  | rollback => cases h; exact .discard _ rfl
  | close => cases h; exact .discard _ rfl
  | getObject key =>
    simp only [serve] at h
    split at h <;> cases h <;> exact .same _
  | putObject key content => cases h; exact .putObject key content
  | enqueue payload => cases h; exact .enqueue payload
  | ack => cases h; exact .ack
  | nack => cases h; exact .nack
  | uuid4 =>
    simp only [serve] at h
    split at h
    · cases h
    · rename_i hfresh
      cases h
      exact .uuid4 _ hfresh
  | respond response => cases h; exact .respond response
  | _ => cases h; exact .same _

theorem exec_effect (h : exec σ p o c out = some (r,σ')) : Effect σ p c σ' := by
  cases out with
  | ok => exact serve_effect h
  | raises f =>
    obtain ⟨-,rfl⟩ := Prod.mk.inj (Option.some.inj h)
    unfold World.abandon
    split
    · exact .discard c ‹_›
    · exact .same c
  | raisesAfter f =>
    simp only [exec] at h
    split at h
    · obtain ⟨x,hx,he⟩ := Option.map_eq_some_iff.mp h
      obtain ⟨-,rfl⟩ := Prod.mk.inj he
      exact serve_effect hx
    · cases h

/-- A commit takes effect as a whole or is abandoned with an error. -/
theorem exec_commit {r : Except Exc Unit} (h : exec σ p o .commit out = some (r,σ')) :
    (System.Outcome.took out = true ∧ σ' = σ.commit p) ∨
      (System.Outcome.took out = false ∧ σ' = σ.discard p ∧ ∃ e, r = .error e) := by
  cases out with
  | ok =>
    cases h
    exact Or.inl ⟨rfl,rfl⟩
  | raises f =>
    cases h
    exact Or.inr ⟨rfl,rfl,_,rfl⟩
  | raisesAfter f =>
    cases h
    exact Or.inl ⟨rfl,rfl⟩

section Fields
variable (σ : World) (p : Proc)

@[simp] theorem settle_db : (σ.settle p).db = σ.db := by cases p <;> rfl
@[simp] theorem settle_inflight : (σ.settle p).inflight = σ.inflight := by cases p <;> rfl
@[simp] theorem settle_objects : (σ.settle p).objects = σ.objects := by cases p <;> rfl
@[simp] theorem settle_ready : (σ.settle p).ready = σ.ready := by cases p <;> rfl
@[simp] theorem settle_minted : (σ.settle p).minted = σ.minted := by cases p <;> rfl
@[simp] theorem settle_wire : (σ.settle p).wire = σ.wire := by cases p <;> rfl
@[simp] theorem settle_history : (σ.settle p).history = σ.history := by cases p <;> rfl

theorem requeue_eq : ∃ ready unsettled,
    σ.requeue p = { σ with ready := ready, unsettled := unsettled } := by
  cases p with
  | request r => exact ⟨_,_,rfl⟩
  | worker w =>
    unfold World.requeue
    dsimp only
    split <;> exact ⟨_,_,rfl⟩

@[simp] theorem requeue_db : (σ.requeue p).db = σ.db := by
  obtain ⟨_,_,h⟩ := requeue_eq σ p
  rw [h]
@[simp] theorem requeue_inflight : (σ.requeue p).inflight = σ.inflight := by
  obtain ⟨_,_,h⟩ := requeue_eq σ p
  rw [h]
@[simp] theorem requeue_objects : (σ.requeue p).objects = σ.objects := by
  obtain ⟨_,_,h⟩ := requeue_eq σ p
  rw [h]
@[simp] theorem requeue_minted : (σ.requeue p).minted = σ.minted := by
  obtain ⟨_,_,h⟩ := requeue_eq σ p
  rw [h]
@[simp] theorem requeue_wire : (σ.requeue p).wire = σ.wire := by
  obtain ⟨_,_,h⟩ := requeue_eq σ p
  rw [h]
@[simp] theorem requeue_history : (σ.requeue p).history = σ.history := by
  obtain ⟨_,_,h⟩ := requeue_eq σ p
  rw [h]

@[simp] theorem send_db (response : Response) : (σ.send p response).db = σ.db := by
  cases p <;> rfl
@[simp] theorem send_inflight (response : Response) :
    (σ.send p response).inflight = σ.inflight := by cases p <;> rfl
@[simp] theorem send_objects (response : Response) :
    (σ.send p response).objects = σ.objects := by cases p <;> rfl
@[simp] theorem send_ready (response : Response) :
    (σ.send p response).ready = σ.ready := by cases p <;> rfl
@[simp] theorem send_unsettled (response : Response) :
    (σ.send p response).unsettled = σ.unsettled := by cases p <;> rfl
@[simp] theorem send_minted (response : Response) :
    (σ.send p response).minted = σ.minted := by cases p <;> rfl
@[simp] theorem send_history (response : Response) :
    (σ.send p response).history = σ.history := by cases p <;> rfl

end Fields

section Writes

@[simp] theorem mem_writesOf (w : Write) : w ∈ σ.writesOf p ↔ (p,w) ∈ σ.inflight := by
  simp [World.writesOf]

theorem writesOf_congr (h : σ'.inflight = σ.inflight) (q : Proc) :
    σ'.writesOf q = σ.writesOf q := by
  simp only [World.writesOf, h]

theorem writesOf_discard (q : Proc) :
    (σ.discard p).writesOf q = if q = p then [] else σ.writesOf q := by
  simp only [World.writesOf, World.discard, List.filter_filter]
  split
  · rename_i h
    subst h
    simp
  · rename_i h
    congr 1
    apply List.filter_congr
    intro e _
    by_cases he : e.1 = q <;> simp [he, h]

theorem writesOf_addWrite (w : Write) (q : Proc) :
    (σ.addWrite p w).writesOf q = if q = p then σ.writesOf p ++ [w] else σ.writesOf q := by
  simp only [World.writesOf, World.addWrite, List.filter_append, List.map_append]
  by_cases h : q = p
  · subst h
    simp
  · have : p ≠ q := fun e => h e.symm
    simp [h, this]

theorem held_false {uses : Write → Bool} (h : σ.held p uses = false) {q : Proc} {w : Write}
    (hq : q ≠ p) (hw : w ∈ σ.writesOf q) : uses w = false := by
  simp only [World.held, List.any_eq_false, Bool.and_eq_true, decide_eq_true_eq, not_and] at h
  simpa using h (q,w) (by simpa using hw) hq

end Writes

namespace Effect

theorem db (he : Effect σ p c σ') (hc : c ≠ .commit) : σ'.db = σ.db := by
  cases he <;> first | rfl | exact absurd rfl hc | simp

theorem history (he : Effect σ p c σ') (hc : c ≠ .commit) : σ'.history = σ.history := by
  cases he <;> first | rfl | exact absurd rfl hc | simp

theorem objects (he : Effect σ p c σ') (hc : ∀ k b, c ≠ .putObject k b) :
    σ'.objects = σ.objects := by
  cases he <;> first | rfl | exact absurd rfl (hc _ _) | simp

/-- No call touches the open transaction of another process. -/
theorem writesOf_other (he : Effect σ p c σ') {q : Proc} (hq : q ≠ p) :
    σ'.writesOf q = σ.writesOf q := by
  cases he with
  | same => rfl
  | discard => rw [writesOf_discard, if_neg hq]
  | commit =>
    have : (σ.commit p).writesOf q = (σ.discard p).writesOf q := rfl
    rw [this, writesOf_discard, if_neg hq]
  | update => rw [writesOf_addWrite, if_neg hq]
  | insertDocument => rw [writesOf_addWrite, if_neg hq]
  | insertJob id m now again =>
    exact (writesOf_congr rfl q).trans ((writesOf_addWrite _ q).trans (if_neg hq))
  | upsertArtifact id now =>
    exact (writesOf_congr rfl q).trans ((writesOf_addWrite _ q).trans (if_neg hq))
  | ack => exact writesOf_congr (settle_inflight σ p) q
  | nack => exact writesOf_congr (requeue_inflight σ p) q
  | respond => exact writesOf_congr (send_inflight σ p _) q
  | _ => exact writesOf_congr rfl q

theorem unsettled_other (he : Effect σ p c σ') {w : ℕ} (hw : p ≠ .worker w) :
    σ'.unsettled w = σ.unsettled w := by
  cases he with
  | ack =>
    cases p with
    | request r => rfl
    | worker v =>
      have : w ≠ v := fun h => hw (by rw [h])
      simp [World.settle, this]
  | nack =>
    cases p with
    | request r => rfl
    | worker v =>
      have : w ≠ v := fun h => hw (by rw [h])
      unfold World.requeue
      dsimp only
      split <;> simp [this]
  | respond => simp
  | _ => rfl

theorem unsettled (he : Effect σ p c σ') (ha : c ≠ .ack) (hn : c ≠ .nack) :
    σ'.unsettled = σ.unsettled := by
  cases he <;> first | rfl | exact absurd rfl ha | exact absurd rfl hn | simp

theorem ready (he : Effect σ p c σ') (ha : ∀ payload, c ≠ .enqueue payload) (hn : c ≠ .nack) :
    σ'.ready = σ.ready := by
  cases he <;> first | rfl | exact absurd rfl (ha _) | exact absurd rfl hn | simp

theorem minted (he : Effect σ p c σ') : ∀ id ∈ σ.minted, id ∈ σ'.minted := by
  intro id hid
  cases he <;> first | exact hid | exact List.mem_cons_of_mem _ hid | simpa using hid

end Effect

end DocPipeline.Effects
