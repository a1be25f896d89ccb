import DocPipeline.Artifacts

/-!
# Timestamps and error messages

`update_status` only ever sets columns. What they say together is a property
of one row that every row the code writes has, committed or still pending.
The order of the timestamps needs a clock: the readings of a run are listed
in the order they are taken, one `update_status` after the other.
-/

set_option autoImplicit false

namespace DocPipeline.Timeline
open DocPipeline.Identifiers DocPipeline.Records DocPipeline.Database DocPipeline.Calls
open DocPipeline.Consumer DocPipeline.Routes DocPipeline.System DocPipeline.Effects
open DocPipeline.Moves DocPipeline.Pending DocPipeline.Ledger DocPipeline.Bookkeeping
open DocPipeline.Artifacts DocPipeline.Exclusion KeyedTable LabelledRuns EffectProgram

def unfailed : JobStatus → ℕ
  | .started => 1
  | .completed => 1
  | _ => 0

structure Stamped (row : JobRow) : Prop where
  queued : row.queuedAt.isSome
  completed : row.completedAt.isSome ↔ row.status = .completed
  failed : row.failedAt.isSome ↔ row.status = .failed
  started : row.startedAt.isSome ↔ 1 ≤ row.attempts
  lastAttempt : row.lastAttemptAt.isSome ↔ 1 ≤ row.attempts
  error : row.errorMessage.isSome ↔ 1 ≤ row.attempts-unfailed row.status
  begun : row.status ≠ .queued → 1 ≤ row.attempts

structure Ordered (row : JobRow) : Prop where
  started : row.status ≠ .queued → ∃ queued started last, row.queuedAt = some queued ∧
    row.startedAt = some started ∧ row.lastAttemptAt = some last ∧
    queued ≤ started ∧ started ≤ last
  completed : ∀ started completed, row.startedAt = some started →
    row.completedAt = some completed → started ≤ completed
  failed : ∀ started failed, row.startedAt = some started →
    row.failedAt = some failed → started ≤ failed
  requeued : row.status = .queued → 1 ≤ row.attempts → ∃ started queued,
    row.startedAt = some started ∧ row.queuedAt = some queued ∧ started ≤ queued

def reads (o : Oracle) : Call → List Time
  | .updateStatus _ .started _ _ => [o.now,o.again]
  | .updateStatus _ _ _ _ => [o.now]
  | .createJob _ => [o.now,o.again]
  | .createDocument _ => [o.now]
  | .createArtifact _ => [o.now]
  | _ => []

def stepReads (threshold : ℕ) (s : State) : Label → List Time
  | .call w o _ => match s.workers w with
    | .handling _ p => match view p with
      | .calls c _ => reads o c
      | .ended _ => []
    | _ => []
  | .serve r o _ => match s.requests r with
    | some q => match viewStage threshold q.stage with
      | .calls c _ => reads o c
      | .ended _ => []
    | none => []
  | _ => []

def readings (threshold : ℕ) (t : List (State × Label)) : List Time :=
  t.reverse.flatMap fun x => stepReads threshold x.1 x.2

theorem readings_cons (threshold : ℕ) (s : State) (l : Label) (t : List (State × Label)) :
    readings threshold ((s,l)::t) = readings threshold t ++ stepReads threshold s l := by
  simp [readings]

section Rows
variable {status : JobStatus} {err : Option String} {now again : Time} {old : JobRow}

/-- The calls of `update_status` in the code. -/
def Lawful (status expected : JobStatus) (err : Option String) : Prop :=
  edge expected status = true ∧ (err.isSome ↔ status = .queued ∨ status = .failed)

theorem stamped_newJob (dto : CreateJobDTO) (id : Uuid) (m : ℕ) (now again : Time) :
    Stamped (newJob dto id m now again) := by
  constructor <;> simp [newJob, unfailed]

theorem stamped_updated (h : Stamped old) (hl : Lawful status old.status err) :
    Stamped (updated status err now again old) := by
  obtain ⟨hedge,herr⟩ := hl
  obtain ⟨hq,hc,hf,hs,hla,he,hb⟩ := h
  have hold : old.status = .queued ∨ old.status = .started := by
    cases ho : old.status <;> simp_all [edge]
  rcases hold with ho | ho <;> cases status <;> simp only [ho, edge] at hedge <;>
    try contradiction
  all_goals
    cases err <;> constructor <;>
      simp_all [updated, stamp, unfailed]

def times (row : JobRow) : List Time :=
  row.queuedAt.toList++row.startedAt.toList++row.lastAttemptAt.toList

theorem ordered_newJob (dto : CreateJobDTO) (id : Uuid) (m : ℕ) (now again : Time) :
    Ordered (newJob dto id m now again) := by
  constructor <;> simp [newJob]

/-- Readings later than the timestamps of a row keep them in order. -/
theorem ordered_updated (hs : Stamped old) (ho : Ordered old) (hl : Lawful status old.status err)
    (hnow : ∀ x ∈ times old, x ≤ now) (hagain : status = .started → now ≤ again) :
    Ordered (updated status err now again old) := by
  have hnone : ∀ {x : Option Time} {b : JobStatus}, (x.isSome ↔ old.status = b) →
      old.status ≠ b → x = none := by
    intro x b hx hb
    simpa using mt hx.mp hb
  have hstart : ∀ x, old.startedAt = some x → x ≤ now := by
    intro x hx
    exact hnow x (by simp [times, hx])
  cases hst : old.status with
  | queued =>
    obtain rfl : status = .started := by
      have := hl.1
      cases status <;> simp_all [edge]
    have hc := hnone hs.completed (by simp [hst])
    have hf := hnone hs.failed (by simp [hst])
    obtain ⟨q,hq⟩ := Option.isSome_iff_exists.mp hs.queued
    have hle := hnow q (by simp [times, hq])
    cases err <;> constructor <;> simp [updated, stamp, hc, hf, hq, hle, hagain]
  | started =>
    have hc := hnone hs.completed (by simp [hst])
    have hf := hnone hs.failed (by simp [hst])
    obtain ⟨q,x,y,hq,hx,hy,hle⟩ := ho.started (by simp [hst])
    have hxn := hstart x hx
    have hedge := hl.1
    rw [hst] at hedge
    cases status with
    | started => cases hedge
    | _ => cases err <;> constructor <;> simp [updated, stamp, hc, hf, hq, hx, hy, hle, hxn]
  | _ =>
    have hedge := hl.1
    rw [hst] at hedge
    cases status <;> cases hedge

theorem times_updated {x : Time} (hx : x ∈ times (updated status err now again old)) :
    x ∈ times old ∨ x = now ∨ (status = .started ∧ x = again) := by
  cases status <;> cases err <;> simp_all [times, updated, stamp] <;> tauto

end Rows

section Worlds
variable {σ σ' : World} {p : Proc} {o : Oracle} {out : Outcome} {c : Call}
  {r : Except Exc c.Resp} {row : JobRow}

def Written (σ : World) (row : JobRow) : Prop :=
  (∃ id, σ.db.jobs.get id = some row) ∨
    ∃ p, .insertJob row ∈ σ.writesOf p ∨ ∃ old, .updateJob old row ∈ σ.writesOf p

theorem jobs_of_foldl {db : Tables} (ws : List Write) {id : Uuid}
    (h : (ws.foldl Write.apply db).jobs.get id = some row) :
    db.jobs.get id = some row ∨ .insertJob row ∈ ws ∨ ∃ old, .updateJob old row ∈ ws := by
  induction ws generalizing db with
  | nil => exact Or.inl h
  | cons w ws ih =>
    rcases ih h with h | h | ⟨old,h⟩
    · cases w with
      | insertJob x =>
        rcases Table.get_insert_cases h with h | ⟨-,rfl⟩
        · exact Or.inl h
        · exact Or.inr (Or.inl List.mem_cons_self)
      | updateJob old new =>
        simp only [Write.apply, Table.get_put] at h
        split at h
        · obtain ⟨x,-,rfl⟩ := Option.map_eq_some_iff.mp h
          exact Or.inr (Or.inr ⟨old,List.mem_cons_self⟩)
        · exact Or.inl h
      | _ => exact Or.inl h
    · exact Or.inr (Or.inl (List.mem_cons_of_mem _ h))
    · exact Or.inr (Or.inr ⟨old,List.mem_cons_of_mem _ h⟩)

theorem Written.congr (h : Written σ' row) (hdb : σ'.db = σ.db)
    (hw : ∀ q, ∀ w ∈ σ'.writesOf q, w ∈ σ.writesOf q) : Written σ row := by
  rcases h with ⟨id,h⟩ | ⟨q,h | ⟨old,h⟩⟩
  · exact Or.inl ⟨id,hdb ▸ h⟩
  · exact Or.inr ⟨q,Or.inl (hw q _ h)⟩
  · exact Or.inr ⟨q,Or.inr ⟨old,hw q _ h⟩⟩

theorem mem_discard {q : Proc} {w : Write} (h : w ∈ (σ.discard p).writesOf q) :
    w ∈ σ.writesOf q := by
  rw [writesOf_discard] at h
  split at h
  · cases h
  · exact h

theorem Written.commit (h : Written (σ.commit p) row) : Written σ row := by
  rcases h with ⟨id,h⟩ | ⟨q,h | ⟨old,h⟩⟩
  · rcases jobs_of_foldl _ h with h | h | h
    · exact Or.inl ⟨id,h⟩
    · exact Or.inr ⟨p,Or.inl h⟩
    · exact Or.inr ⟨p,Or.inr h⟩
  · exact Or.inr ⟨q,Or.inl (mem_discard h)⟩
  · exact Or.inr ⟨q,Or.inr ⟨old,mem_discard h⟩⟩

/-- A new statement adds the row it writes and nothing else. -/
theorem Written.add {w : Write} (ids : List Uuid)
    (h : Written { σ.addWrite p w with minted := ids } row) :
    Written σ row ∨ w = .insertJob row ∨ ∃ old, w = .updateJob old row := by
  have hmem : ∀ q v, v ∈ World.writesOf { σ.addWrite p w with minted := ids } q →
      v ∈ σ.writesOf q ∨ w = v := by
    intro q v hv
    have hv : v ∈ (σ.addWrite p w).writesOf q := hv
    rw [writesOf_addWrite] at hv
    split at hv
    · rename_i hq
      rcases List.mem_append.mp hv with hv | hv
      · exact Or.inl (hq ▸ hv)
      · exact Or.inr (List.mem_singleton.mp hv).symm
    · exact Or.inl hv
  rcases h with ⟨id,h⟩ | ⟨q,h | ⟨old,h⟩⟩
  · exact Or.inl (Or.inl ⟨id,h⟩)
  · rcases hmem q _ h with h | h
    · exact Or.inl (Or.inr ⟨q,Or.inl h⟩)
    · exact Or.inr (Or.inl h)
  · rcases hmem q _ h with h | h
    · exact Or.inl (Or.inr ⟨q,Or.inr ⟨old,h⟩⟩)
    · exact Or.inr (Or.inr ⟨old,h⟩)

def Fresh (σ : World) (o : Oracle) (row : JobRow) : Call → Prop
  | .createJob dto => row = newJob dto o.uuid o.maxAttempts o.now o.again
  | .updateStatus job status expected err => ∃ old, σ.db.jobs.get job = some old ∧
      old.status = expected ∧ row = updated status err o.now o.again old
  | _ => False

theorem written_effect (he : Effect σ p c σ') (hj : ∀ dto, c ≠ .createJob dto)
    (hu : ∀ job status expected err, c ≠ .updateStatus job status expected err)
    (h : Written σ' row) : Written σ row := by
  cases he with
  | same => exact h
  | discard => exact h.congr rfl (fun q w hw => mem_discard hw)
  | commit => exact h.commit
  | insertJob => exact absurd rfl (hj _)
  | update => exact absurd rfl (hu _ _ _ _)
  | insertDocument now => exact (h.add σ.minted).resolve_right (by simp)
  | upsertArtifact id now => exact (h.add _).resolve_right (by simp)
  | ack => exact h.congr (settle_db σ p) (fun q w hw => by
      rwa [writesOf_congr (settle_inflight σ p)] at hw)
  | nack => exact h.congr (requeue_db σ p) (fun q w hw => by
      rwa [writesOf_congr (requeue_inflight σ p)] at hw)
  | respond response => exact h.congr (send_db σ p response) (fun q w hw => by
      rwa [writesOf_congr (send_inflight σ p response)] at hw)
  | _ => exact h.congr rfl (fun q w hw => hw)

theorem written_createJob {dto : CreateJobDTO} {r : Except Exc JobRow}
    (he : exec σ p o (.createJob dto) out = some (r,σ')) (h : Written σ' row) :
    Written σ row ∨ Fresh σ o row (.createJob dto) := by
  have hd : Written (σ.discard p) row → Written σ row :=
    fun h => h.congr rfl (fun q w hw => mem_discard hw)
  cases out with
  | ok =>
    simp only [exec, serve] at he
    split at he
    · cases he
    · split at he
      · cases he
        exact Or.inl (hd h)
      · split at he
        · cases he
        · cases he
          rcases h.add _ with h | h | ⟨old,h⟩
          · exact Or.inl h
          · exact Or.inr (Write.insertJob.inj h).symm
          · cases h
  | raises f =>
    cases he
    exact Or.inl (hd h)
  | raisesAfter f => cases he

theorem written_updateStatus {job : Uuid} {status expected : JobStatus} {err : Option String}
    {r : Except Exc JobRow} (he : exec σ p o (.updateStatus job status expected err) out = some (r,σ'))
    (h : Written σ' row) :
    Written σ row ∨ Fresh σ o row (.updateStatus job status expected err) := by
  cases out with
  | ok =>
    simp only [exec, serve] at he
    split at he
    · cases he
    · split at he
      · rename_i old hold
        split at he
        · rename_i hst
          cases he
          rcases h.add σ.minted with h | h | ⟨old',h⟩
          · exact Or.inl h
          · cases h
          · exact Or.inr ⟨old,hold,hst,(Write.updateJob.inj h).2.symm⟩
        · cases he
          exact Or.inl h
      · cases he
        exact Or.inl h
  | raises f =>
    cases he
    exact Or.inl (h.congr rfl (fun q w hw => mem_discard hw))
  | raisesAfter f => cases he

theorem written_exec (he : exec σ p o c out = some (r,σ')) (h : Written σ' row) :
    Written σ row ∨ Fresh σ o row c := by
  cases c with
  | createJob dto => exact written_createJob he h
  | updateStatus job status expected err => exact written_updateStatus he h
  | _ => exact Or.inl (written_effect (exec_effect he) (by simp) (by simp) h)

end Worlds

section Steps
variable {threshold : ℕ} {s s' : State} {l : Label}

theorem lawful_view {p : Phase} {job : Uuid} {status expected : JobStatus} {err : Option String}
    {k : Except Exc JobRow → Phase} (hv : view p = .calls (.updateStatus job status expected err) k) :
    Lawful status expected err := by
  cases p <;> cases hv <;> simp [Lawful, edge]

theorem lawful_viewStage {x : Stage} {job : Uuid} {status expected : JobStatus}
    {err : Option String} {k : Except Exc JobRow → Stage} :
    viewStage threshold x ≠ .calls (.updateStatus job status expected err) k := by
  intro hv
  cases x <;> cases hv

/-- Where the rows after a step come from. -/
theorem written_step (hm : Move threshold s l s') {row : JobRow} (h : Written s'.world row) :
    Written s.world row ∨ ∃ o c, stepReads threshold s l = reads o c ∧ Fresh s.world o row c ∧
      ∀ job status expected err, c = .updateStatus job status expected err →
        Lawful status expected err := by
  cases l with
  | call w o out =>
    cases hm with
    | @call w m p c k o out r σ hw hv hx =>
      rcases written_exec hx (h.congr rfl (fun q w hw => hw)) with h | h
      · exact Or.inl h
      · refine Or.inr ⟨o,c,by simp [stepReads, hw, hv],h,fun job status expected err hc => ?_⟩
        subst hc
        exact lawful_view hv
  | serve q o out =>
    cases hm with
    | @serve _ x c k _ _ r σ hq hv hx =>
      rcases written_exec hx (h.congr rfl (fun q w hw => hw)) with h | h
      · exact Or.inl h
      · refine Or.inr ⟨o,c,by simp [stepReads, hq, hv],h,fun job status expected err hc => ?_⟩
        subst hc
        exact absurd hv lawful_viewStage
  | _ =>
    have hi := move_idle hm (by simp) (by simp)
    refine Or.inl (h.congr hi.db (fun q w hw => ?_))
    rcases hi.writes q with he | he
    · rwa [he] at hw
    · rw [he] at hw
      cases hw

structure Recorded (seen : List Time) (row : JobRow) : Prop where
  stamped : Stamped row
  times : ∀ x ∈ times row, x ∈ seen
  ordered : seen.Pairwise (· ≤ ·) → Ordered row

theorem Recorded.later {seen more : List Time} {row : JobRow} (h : Recorded seen row) :
    Recorded (seen++more) row where
  stamped := h.stamped
  times x hx := List.mem_append_left _ (h.times x hx)
  ordered hp := h.ordered (List.pairwise_append.mp hp).1

theorem recorded_fresh {seen : List Time} {σ : World} {o : Oracle} {c : Call} {row : JobRow}
    (h : ∀ x, Written σ x → Recorded seen x) (hf : Fresh σ o row c)
    (hl : ∀ job status expected err, c = .updateStatus job status expected err →
      Lawful status expected err) : Recorded (seen++reads o c) row := by
  cases c with
  | createJob dto =>
    obtain rfl : row = _ := hf
    refine ⟨stamped_newJob _ _ _ _ _,fun x hx => ?_,fun _ => ordered_newJob _ _ _ _ _⟩
    obtain rfl : x = o.now := by simpa [times, newJob] using hx
    simp [reads]
  | updateStatus job status expected err =>
    obtain ⟨old,hold,rfl,rfl⟩ := hf
    have ho := h old (Or.inl ⟨job,hold⟩)
    have hl := hl _ _ _ _ rfl
    refine ⟨stamped_updated ho.stamped hl,fun x hx => ?_,fun hp => ?_⟩
    · rcases times_updated hx with hx | rfl | ⟨rfl,rfl⟩
      · exact List.mem_append_left _ (ho.times x hx)
      · apply List.mem_append_right
        cases status <;> simp [reads]
      · simp [reads]
    · obtain ⟨hseen,hnew,hcross⟩ := List.pairwise_append.mp hp
      refine ordered_updated ho.stamped (ho.ordered hseen) hl (fun x hx => ?_) ?_
      · apply hcross x (ho.times x hx)
        cases status <;> simp [reads]
      · rintro rfl
        simpa [reads] using hnew
  | _ => cases hf

theorem recorded_of_trail {t : List (State × Label)} (ht : Trail (step threshold) init t s) :
    ∀ row, Written s.world row → Recorded (readings threshold t) row := by
  induction ht with
  | start =>
    rintro row (⟨id,h⟩ | ⟨p,h | ⟨old,h⟩⟩) <;> cases h
  | next ht hs ih =>
    intro row h
    rw [readings_cons]
    rcases written_step (step_move hs) h with h | ⟨o,c,hr,hf,hl⟩
    · exact (ih row h).later
    · rw [hr]
      exact recorded_fresh ih hf hl

section Errors
variable {db db' : Tables} {log es : List Event} {j : Uuid} {row : JobRow}

def FailedBefore (j : Uuid) (log : List Event) : Prop :=
  ∃ p b n, .moved p j .started b n ∈ log ∧ (b = .queued ∨ b = .failed)

theorem failedBefore_append (h : ∀ p b n, .moved p j .started b n ∈ es → b ≠ .queued ∧ b ≠ .failed) :
    FailedBefore j (es++log) ↔ FailedBefore j log := by
  constructor
  · rintro ⟨p,b,n,hm,hb⟩
    rcases List.mem_append.mp hm with hm | hm
    · have := h p b n hm
      tauto
    · exact ⟨p,b,n,hm,hb⟩
  · rintro ⟨p,b,n,hm,hb⟩
    exact ⟨p,b,n,List.mem_append_right _ hm,hb⟩

/-- A row that moves on, seen from its error message. -/
theorem error_updated {old : JobRow} {status : JobStatus} {err : Option String}
    {now again : Time} {w n : ℕ} (hrow : db.jobs.get old.id = some old)
    (hl : Lawful status old.status err)
    (ih : ∀ row, db.jobs.get j = some row → (row.errorMessage.isSome ↔ FailedBefore j log))
    (hj : (db.jobs.put (updated status err now again old)).get j = some row) :
    row.errorMessage.isSome ↔
      FailedBefore j ([.moved (.worker w) old.id old.status status n]++log) := by
  rw [get_put_row hrow (by simp)] at hj
  split at hj
  · rename_i hid
    subst hid
    obtain rfl := Option.some.inj hj
    have hold := ih old hrow
    cases err with
    | none =>
      have hne : status ≠ .queued ∧ status ≠ .failed := by simpa using hl.2
      rw [failedBefore_append, ← hold]
      · simp
      · simp only [List.mem_singleton, Event.moved.injEq]
        rintro p b n ⟨-,-,-,rfl,-⟩
        exact hne
    | some text =>
      have hb : status = .queued ∨ status = .failed := by simpa using hl.2
      have hst : old.status = .started := by
        have := hl.1
        rcases hb with rfl | rfl <;> cases ho : old.status <;> simp_all [edge]
      simp only [updated_errorMessage, Option.orElse_some, Option.isSome_some, true_iff]
      exact ⟨_,status,n,by rw [hst]; exact List.mem_cons_self,hb⟩
  · rename_i hid
    rw [failedBefore_append, ih row hj]
    simp only [List.mem_singleton, Event.moved.injEq]
    rintro p b n ⟨-,rfl,-⟩
    exact absurd rfl hid

/-- The error message is set exactly when an attempt has ended in failure. -/
theorem book_error (h : Book db log) (hrow : db.jobs.get j = some row) :
    row.errorMessage.isSome ↔ FailedBefore j log := by
  induction h generalizing row with
  | empty => simp [Tables.empty, Table.get_empty] at hrow
  | quiet h es hes ih =>
    rw [failedBefore_append, ih hrow]
    intro p b n hm
    have := hes _ hm
    simp [reading] at this
  | @post db db' log es h hp ih =>
    cases hp with
    | document => exact ih hrow
    | created x hfresh hindex howner hnew =>
      rw [failedBefore_append (by simp)]
      rcases Table.get_insert_cases hrow with hold | ⟨rfl,rfl⟩
      · exact ih hold
      · obtain ⟨dto,id,m,now,again,hx⟩ := hnew
        have hnone : row.errorMessage = none := by rw [hx]; rfl
        simp only [hnone, Option.isSome_none, Bool.false_eq_true, false_iff]
        rintro ⟨p,b,n,hm,-⟩
        obtain ⟨y,hy,-⟩ := book_ended h hm
        rw [hfresh] at hy
        cases hy
    | claimed w old now again hold hst =>
      have := error_updated (w := w) (n := old.attempts+1) hold
        (by rw [hst]; simp [Lawful, edge]) (fun _ => ih) hrow
      rwa [hst] at this
    | completed w old now again a hold hst ha =>
      have := error_updated (w := w) (n := old.attempts) hold
        (by rw [hst]; simp [Lawful, edge]) (fun _ => ih) hrow
      rwa [hst] at this
    | requeued w old text now again hold hst hmore htext =>
      have := error_updated (w := w) (n := old.attempts) hold
        (by rw [hst]; simp [Lawful, edge]) (fun _ => ih) hrow
      rwa [hst] at this
    | failed w old text now again hold hst hlast htext =>
      have := error_updated (w := w) (n := old.attempts) hold
        (by rw [hst]; simp [Lawful, edge]) (fun _ => ih) hrow
      rwa [hst] at this

end Errors

/-- The ledger that every reachable row keeps: which columns are set, when
the error message is, and, where the clock does not run backwards, the order
of the timestamps. -/
theorem lifecycle_ledger {t : List (State × Label)} (ht : Trail (step threshold) init t s)
    {j : Uuid} {row : JobRow} (hrow : s.world.db.jobs.get j = some row) :
    Stamped row ∧
    (row.errorMessage.isSome ↔ FailedBefore j s.world.history) ∧
    ((readings threshold t).Pairwise (· ≤ ·) → Ordered row) := by
  have hr := recorded_of_trail ht row (Or.inl ⟨j,hrow⟩)
  exact ⟨hr.stamped,book_error (book_of_reachable ⟨t,ht⟩) hrow,hr.ordered⟩

end Steps

def timedRun : List Label := List.flatten [publishRun,[.deliver 0 0,.begin 0],
  List.replicate 3 (.call 0 {} .ok),[.call 0 { now := 5, again := 6 } .ok],
  List.replicate 7 (.call 0 { now := 6 } .ok),[.call 0 { uuid := 3, now := 7 } .ok],
  [.call 0 { now := 9 } .ok],[.call 0 {} .ok]]

theorem lifecycle_ledger_sample :
    ∃ row, (after timedRun).world.db.jobs.get 2 = some row ∧ row.completedAt = some 9 ∧
      Stamped row ∧ Ordered row := by
  have ht : Trail (step 100) init (path (step 100) init timedRun) (after timedRun) :=
    trail_path timedRun (by decide +kernel)
  have hrow : ((after timedRun).world.db.jobs.get 2).isSome = true := by decide +kernel
  obtain ⟨row,hrow⟩ := Option.isSome_iff_exists.mp hrow
  obtain ⟨hs,-,ho⟩ := lifecycle_ledger ht hrow
  refine ⟨row,hrow,?_,hs,ho (by decide +kernel)⟩
  have hc : ((after timedRun).world.db.jobs.get 2).map JobRow.completedAt = some (some 9) := by
    decide +kernel
  rw [hrow] at hc
  exact Option.some.inj hc

end DocPipeline.Timeline
