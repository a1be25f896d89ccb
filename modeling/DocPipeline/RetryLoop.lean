import DocPipeline.Tokens
import DocPipeline.Library.Retries

/-!
# The pipeline is a retry loop

Fix how each attempt of each job ends. In every run in which no process dies
and the broker and the job table answer, once nothing is left to do, the row
of a job is the one that a sequential loop over its attempts leaves behind,
whatever the schedule, the number of workers and the duplicates.
-/

set_option autoImplicit false

namespace DocPipeline.RetryLoop
open DocPipeline.Identifiers DocPipeline.Records DocPipeline.Database DocPipeline.Calls
open DocPipeline.Consumer DocPipeline.Routes DocPipeline.System DocPipeline.Moves
open DocPipeline.Effects DocPipeline.Answers DocPipeline.Transactions DocPipeline.Pending
open DocPipeline.Reservations DocPipeline.Stances DocPipeline.Engagement DocPipeline.Knowledge
open DocPipeline.Ledger DocPipeline.Bookkeeping DocPipeline.Exclusion DocPipeline.Publication
open DocPipeline.Budget DocPipeline.Tokens LabelledRuns EffectProgram BoundedRetry

/-- The failure of each attempt of each job, if it fails. -/
abbrev Outcomes := Uuid → ℕ → Option String

def Conforms (f : ℕ → Option String) (row : JobRow) : Prop :=
  match row.status with
  | .queued => (∀ i, 1 ≤ i → i ≤ row.attempts → f i ≠ none) ∧
      row.errorMessage = report f row.attempts
  | .started => 1 ≤ row.attempts ∧ (∀ i, 1 ≤ i → i < row.attempts → f i ≠ none) ∧
      row.errorMessage = report f (row.attempts-1)
  | .completed => 1 ≤ row.attempts ∧ (∀ i, 1 ≤ i → i < row.attempts → f i ≠ none) ∧
      row.errorMessage = report f (row.attempts-1) ∧ f row.attempts = none
  | .failed => (∀ i, 1 ≤ i → i ≤ row.attempts → f i ≠ none) ∧
      row.errorMessage = report f row.attempts

structure Follows (f : Outcomes) (log : List Event) : Prop where
  failures : ∀ j n text, .failureHandled j n text ∈ log → f j n = some text
  successes : ∀ p j n, .moved p j .started .completed n ∈ log → f j n = none

theorem Follows.mono {f : Outcomes} {log log' : List Event} (h : Follows f log)
    (hl : ∀ e ∈ log', e ∈ log) : Follows f log' :=
  ⟨fun j n text he => h.failures j n text (hl _ he),fun p j n he => h.successes p j n (hl _ he)⟩

section Rows
variable {f : ℕ → Option String} {old : JobRow}

theorem conforms_claim (now again : Time) (h : Conforms f old) (hst : old.status = .queued) :
    Conforms f (updated .started none now again old) := by
  simp only [Conforms, hst] at h
  simp only [Conforms, updated_status, updated_attempts, updated_errorMessage, if_true]
  exact ⟨by omega,fun i hi hlt => h.1 i hi (by omega),h.2⟩

theorem conforms_complete (now again : Time) (h : Conforms f old) (hst : old.status = .started)
    (hf : f old.attempts = none) : Conforms f (updated .completed none now again old) := by
  simp only [Conforms, hst] at h
  simpa [Conforms, hf] using h

theorem conforms_release {status : JobStatus} (now again : Time) {text : String}
    (h : Conforms f old) (hst : old.status = .started) (hf : f old.attempts = some text)
    (hs : status = .queued ∨ status = .failed) :
    Conforms f (updated status (some text) now again old) := by
  simp only [Conforms, hst] at h
  have hall : ∀ i, 1 ≤ i → i ≤ old.attempts → f i ≠ none := by
    intro i hi hle
    rcases hle.lt_or_eq with hlt | rfl
    · exact h.2.1 i hi hlt
    · simp [hf]
  have herr : some text = report f old.attempts := by rw [report_of_pos h.1, hf]
  rcases hs with rfl | rfl <;> simpa [Conforms] using ⟨hall,herr⟩

end Rows

/-- The rows of a book whose attempts end as in `f`. -/
theorem book_conforms {f : Outcomes} {db : Tables} {log : List Event} (h : Book db log)
    (hf : Follows f log) {j : Uuid} {row : JobRow} (hrow : db.jobs.get j = some row) :
    Conforms (f j) row := by
  induction h generalizing j row with
  | empty => cases hrow
  | quiet h es hes ih => exact ih (hf.mono (fun e he => List.mem_append_right _ he)) hrow
  | @post db db' log es h hp ih =>
    have ih : ∀ {j row}, db.jobs.get j = some row → Conforms (f j) row :=
      fun hrow => ih (hf.mono (fun e he => List.mem_append_right _ he)) hrow
    have hput : ∀ old new, db.jobs.get old.id = some old → new.id = old.id →
        (Conforms (f old.id) old → Conforms (f old.id) new) →
        (db.jobs.put new).get j = some row → Conforms (f j) row := by
      intro old new hold hid hnew hget
      rw [get_put_row hold hid] at hget
      split at hget
      · rename_i hj
        subst hj
        obtain rfl := Option.some.inj hget
        exact hnew (ih hold)
      · exact ih hget
    cases hp with
    | document x hfresh hkey => exact ih hrow
    | created x hfresh hindex howner hnew =>
      rcases KeyedTable.Table.get_insert_cases hrow with hrow | ⟨rfl,rfl⟩
      · exact ih hrow
      · obtain ⟨dto,id,m,now,again,rfl⟩ := hnew
        exact ⟨fun i hi hle => by simp [newJob] at hle; omega,rfl⟩
    | claimed w old now again hold hst =>
      exact hput old _ hold (by simp) (fun hc => conforms_claim now again hc hst) hrow
    | completed w old now again a hold hst ha =>
      have hs := hf.successes (.worker w) old.id old.attempts (by simp)
      exact hput old _ hold (by simp) (fun hc => conforms_complete now again hc hst hs) hrow
    | requeued w old text now again hold hst hmore htext =>
      have hs := hf.failures old.id old.attempts text (List.mem_append_right _ htext)
      exact hput old _ hold (by simp)
        (fun hc => conforms_release now again hc hst hs (Or.inl rfl)) hrow
    | failed w old text now again hold hst hlast htext =>
      have hs := hf.failures old.id old.attempts text (List.mem_append_right _ htext)
      exact hput old _ hold (by simp)
        (fun hc => conforms_release now again hc hst hs (Or.inr rfl)) hrow

def inProcess : Worker → Bool
  | .handling _ (.processJob _ _) => true
  | .handling _ (.processDocument _ _ _) => true
  | .handling _ (.processFetch _ _ _ _) => true
  | .handling _ (.processParse _ _ _ _ _) => true
  | .handling _ (.processPut _ _ _ _ _) => true
  | .handling _ (.processArtifact _ _ _ _ _) => true
  | _ => false

def processEnd : Worker → Option (Ticket × Option String)
  | .handling _ (.rollback (.processed job started) e) => some ((job,started.attempts),some e.str)
  | .handling _ (.commit (.processed job started)) => some ((job,started.attempts),none)
  | _ => none

/-- The steps of a run without deaths in which only the calls inside
`process` may fail, and `process` ends as in `f`. -/
def Calm (threshold : ℕ) (f : Outcomes) (s : State) : Label → Prop
  | .die _ | .lose _ | .abort _ => False
  | .call w o out => (out ≠ .ok → inProcess (s.workers w) = true) ∧
      ∀ s' x err, step threshold s (.call w o out) = some s' →
        processEnd (s'.workers w) = some (x,err) → f x.1 x.2 = err
  | .serve r _ out => commits (s.requests r) = true ∨ announces (s.requests r) ≠ none → out = .ok
  | _ => True

def resting : Worker → Bool
  | .idle | .dead => true
  | _ => false

def answered : Option Request → Bool
  | none | some ⟨_,.finished⟩ | some ⟨_,.crashed _⟩ => true
  | _ => false

structure Quiescent (s : State) : Prop where
  ready : s.world.ready = []
  unsettled : ∀ w, s.world.unsettled w = none
  workers : ∀ w, resting (s.workers w) = true
  requests : ∀ r, answered (s.requests r) = true

section Calm
variable {threshold : ℕ} {f : Outcomes} {s s' : State} {l : Label}

theorem Calm.steady (h : Calm threshold f s l) : Steady s l := by
  cases l with
  | call w o out =>
    intro he
    by_contra hout
    have hp := h.1 hout
    cases hx : s.workers w with
    | handling m p => rw [hx] at he hp; cases p <;> first | (cases hp; done) | cases he
    | _ => rw [hx] at he; cases he
  | serve r o out =>
    refine ⟨fun ha => h (Or.inr ha),fun hc x => ?_⟩
    rw [h (Or.inl hc)]
    simp
  | lose w => exact h
  | abort r => exact absurd h (by simp [Calm])
  | _ => trivial

def known : Worker → Option (Ticket × Option String)
  | .handling _ (.close (.processed job started) (some e)) =>
    some ((job,started.attempts),some e.str)
  | .handling _ (.requeue job started e) => some ((job,started.attempts),some e.str)
  | .handling _ (.fail job started e) => some ((job,started.attempts),some e.str)
  | x => processEnd x

structure Faithful (f : Outcomes) (s : State) : Prop where
  workers : ∀ w x err, known (s.workers w) = some (x,err) → f x.1 x.2 = err
  history : Follows f s.world.history

theorem known_onFailure (m : Message) (job : Uuid) (started : JobRow) (e : Exc) :
    known (.handling m (onFailure job started e)) =
      some ((job,started.attempts),some e.str) := by
  unfold onFailure
  split <;> rfl

theorem known_leave {m : Message} {site : Site} {e : Option Exc} {y : Ticket × Option String}
    (h : known (.handling m (leave site e)) = some y) :
    known (.handling m (.close site e)) = some y := by
  cases site with
  | processed job started =>
    cases e with
    | none => cases h
    | some e => exact (known_onFailure m job started e).symm.trans h
  | requeued | failed =>
    rcases e with _ | e
    · cases h
    · cases e <;> cases h
  | _ => cases e <;> cases h

/-- What is known of an attempt was known before or is the end of `process`. -/
theorem known_call {m : Message} {σ σ' : World} {w : ℕ} {o : Oracle} {out : Outcome} {p : Phase}
    {c : Call} {k : Except Exc c.Resp → Phase} {r : Except Exc c.Resp}
    {y : Ticket × Option String} (hv : view p = .calls c k)
    (he : exec σ (.worker w) o c out = some (r,σ'))
    (hout : out ≠ .ok → inProcess (.handling m p) = true)
    (h : known (.handling m (k r)) = some y) :
    known (.handling m p) = some y ∨ processEnd (.handling m (k r)) = some y := by
  have hok : inProcess (.handling m p) = false → out = .ok := by
    intro hp
    by_contra hne
    rw [hout hne] at hp
    cases hp
  cases p with
  | returned => cases hv
  | raised d e => cases hv
  | commit site => cases hv; cases r <;> cases site <;> exact Or.inr h
  | rollback site e =>
    cases hv
    obtain rfl := hok rfl
    cases he
    cases site <;> exact Or.inl h
  | close site e =>
    cases hv
    obtain rfl := hok rfl
    cases he
    exact Or.inl (known_leave h)
  | lookup job =>
    cases hv
    rcases r with e | _ | row
    · cases h
    · cases h
    · dsimp only at h
      split at h <;> cases h
  | claim job =>
    cases hv
    rcases r with e | started
    · cases e <;> cases h
    · cases h
  | ackSuccess job started =>
    cases hv
    obtain rfl := hok rfl
    cases he
    cases h
  | enqueue job started =>
    cases hv
    rcases r with e | _
    · cases e <;> cases h
    · cases h
  | processJob | processDocument => cases hv; rcases r with e | _ | row <;> exact Or.inr h
  | _ => cases hv; cases r <;> exact Or.inr h

theorem completed_at_commit {site : Site} {ws : List Write} {old new : JobRow}
    (ho : opened (.commit site) ws) (hu : .updateJob old new ∈ ws)
    (hst : new.status = .completed) :
    ∃ started, site = .processed old.id started ∧ new.id = old.id ∧
      new.attempts = old.attempts := by
  cases commit_updates ho hu with
  | processed started now again => exact ⟨started,rfl,by simp,by simp⟩
  | _ => simp at hst

/-- A commit of the handler completes a job only at the end of `process`. -/
theorem follows_commit (hs : Sound s) (h : Faithful f s) {w : ℕ} {m : Message} {site : Site}
    (hw : s.workers w = .handling m (.commit site)) :
    Follows f (s.world.commit (.worker w)).history := by
  have hop := hs.opened.workers w
  have hh := hs.engaged.holds w
  have hk := h.workers w
  rw [hw] at hop hh hk
  have hmoved : ∀ e ∈ ((s.world.writesOf (.worker w)).flatMap (writeEvents (.worker w))).reverse,
      (∀ j n text, e ≠ .failureHandled j n text) ∧
        ∀ p j n, e = .moved p j .started .completed n → f j n = none := by
    intro e he
    obtain ⟨x,hx,he⟩ := List.mem_flatMap.mp (List.mem_reverse.mp he)
    cases x with
    | insertJob row =>
      obtain rfl := List.mem_singleton.mp he
      simp
    | updateJob old new =>
      obtain rfl := List.mem_singleton.mp he
      refine ⟨by simp,fun p j n heq => ?_⟩
      obtain ⟨-,rfl,-,hst,rfl⟩ := Event.moved.inj heq
      obtain ⟨started,rfl,hid,hatt⟩ := completed_at_commit hop hx hst
      obtain ⟨hget,-⟩ := commit_jobs_updated hs.guarded.fenced hx
      obtain rfl := Option.some.inj (hget.symm.trans hh.2)
      rw [hid, hatt]
      exact hk _ _ rfl
    | _ => simp [writeEvents] at he
  refine ⟨fun j n text he => ?_,fun p j n he => ?_⟩
  · rcases List.mem_append.mp he with he | he
    · exact absurd rfl ((hmoved _ he).1 j n text)
    · exact h.history.failures j n text he
  · rcases List.mem_append.mp he with he | he
    · exact (hmoved _ he).2 p j n rfl
    · exact h.history.successes p j n he

theorem follows_append {log es : List Event} (h : Follows f log)
    (hf : ∀ j n text, .failureHandled j n text ∈ es → f j n = some text)
    (hs : ∀ p j n, .moved p j .started .completed n ∉ es) : Follows f (es++log) := by
  refine ⟨fun j n text he => ?_,fun p j n he => ?_⟩
  · rcases List.mem_append.mp he with he | he
    · exact hf j n text he
    · exact h.failures j n text he
  · rcases List.mem_append.mp he with he | he
    · exact absurd he (hs p j n)
    · exact h.successes p j n he

theorem failure_entered {m : Message} {p : Phase} {j : Uuid} {n : ℕ} {text : String}
    (h : .failureHandled j n text ∈ entered p) :
    known (.handling m p) = some ((j,n),some text) := by
  cases p with
  | requeue job started e =>
    obtain ⟨rfl,rfl,rfl⟩ := Event.failureHandled.inj (List.mem_singleton.mp h)
    rfl
  | fail job started e =>
    obtain ⟨rfl,rfl,rfl⟩ := Event.failureHandled.inj (List.mem_singleton.mp h)
    rfl
  | _ => simp [entered] at h

theorem known_fresh {x : Worker} (h : fresh x) : known x = none := by
  cases x with
  | handling m p =>
    obtain rfl : p = start m.body := h
    unfold start
    split <;> rfl
  | _ => rfl

theorem Faithful.step (h : Faithful f s) (hs : Sound s) (hok : Calm threshold f s l)
    (hstep : step threshold s l = some s') : Faithful f s' := by
  have hm := step_move hstep
  cases l with
  | call w o out =>
    cases hm with
    | @call _ m p c k _ _ r σ hw hv he =>
      have hnew : ∀ x err, known (.handling m (k r)) = some (x,err) → f x.1 x.2 = err := by
        intro x err hx
        rcases known_call hv he (fun hne => by have := hok.1 hne; rwa [hw] at this) hx with hx | hx
        · exact h.workers w x err (by rw [hw]; exact hx)
        · exact hok.2 _ x err hstep (by simpa [State.setWorker] using hx)
      refine ⟨?_,?_⟩
      · exact (Function.forall_update_iff s.workers
          (fun _ y => ∀ x err, known y = some (x,err) → f x.1 x.2 = err)).mpr
          ⟨hnew,fun v _ => h.workers v⟩
      · refine follows_append ?_ (fun j n text hx => ?_) (fun y j n hx => ?_)
        · by_cases hc : c = .commit
          · subst hc
            obtain ⟨site,rfl⟩ := phase_at_commit hv
            obtain ⟨-,rfl⟩ | ⟨-,rfl,-⟩ := exec_commit he
            · exact follows_commit hs h hw
            · exact h.history
          · rw [(exec_effect he).history hc]
            exact h.history
        · rcases List.mem_append.mp hx with hx | hx
          · exact hnew _ _ (failure_entered hx)
          · split at hx
            · cases p <;> simp [performed] at hx
            · cases hx
        · rcases List.mem_append.mp hx with hx | hx
          · cases entered_quiet _ _ hx
          · split at hx
            · cases performed_quiet p _ hx
            · cases hx
  | serve q o out =>
    cases hm with
    | @serve _ x c k _ _ r σ hq hv he =>
      refine ⟨h.workers,follows_append ?_ (fun j n text hx => ?_) (fun y j n hx => ?_)⟩
      · by_cases hc : c = .commit
        · subst hc
          have hop := hs.opened.requests q
          rw [hq] at hop
          obtain ⟨-,rfl⟩ | ⟨-,rfl,-⟩ := exec_commit he
          · refine follows_append h.history ?_ ?_ <;>
            · rcases stage_at_commit hv hop with hws | ⟨_,-,hws⟩ | ⟨_,_,_,-,hws,-⟩ <;>
                simp [hws, writeEvents, -mem_writesOf]
          · exact h.history
        · rw [(exec_effect he).history hc]
          exact h.history
      · split at hx
        · cases hst : x.stage <;> simp [hst, performedStage] at hx
        · cases hx
      · split at hx
        · cases performedStage_quiet _ _ hx
        · cases hx
  | _ =>
    have hi := move_idle hm (by simp) (by simp)
    refine ⟨fun w x err hx => ?_,?_⟩
    · rcases hi.workers w with he | hf
      · rw [he] at hx
        exact h.workers w x err hx
      · rw [known_fresh hf] at hx
        cases hx
    · obtain ⟨es,he,hes⟩ := hi.history
      rw [he]
      refine follows_append h.history (fun j n text hx => ?_) (fun y j n hx => ?_)
      · obtain ⟨a,y,hy⟩ := hes _ hx
        cases hy
      · obtain ⟨a,y,hy⟩ := hes _ hx
        cases hy

def Attends (x : Worker) (j : Uuid) (row : JobRow) : Prop :=
  stanceOf x = .running j row ∨ stanceOf x = .unsure j row

def Attended (s : State) : Prop :=
  ∀ j row, s.world.db.jobs.get j = some row → row.status = .started →
    ∃ w, Attends (s.workers w) j row

theorem attends_onFailure (m : Message) (j : Uuid) (row : JobRow) (e : Exc) :
    Attends (.handling m (onFailure j row e)) j row :=
  Or.inr (stance_onFailure e)

section Hands
variable {m : Message} {σ σ' : World} {w : ℕ} {o : Oracle} {out : Outcome} {p : Phase} {c : Call}
  {k : Except Exc c.Resp → Phase} {r : Except Exc c.Resp} {j : Uuid} {row : JobRow} {site : Site}
  {e : Exc}

/-- However a call of `process` ends, the handler goes on with the job or is
about to give it back. -/
theorem attends_processing (hp : processing p = true) (hv : view p = .calls c k)
    (h : Attends (.handling m p) j row) : Attends (.handling m (k r)) j row := by
  cases p with
  | processJob | processDocument =>
    obtain ⟨rfl,rfl⟩ := Stance.running.inj (h.resolve_right (by rintro ⟨⟩))
    cases hv
    rcases r with e | _ | y
    · exact Or.inr rfl
    · exact Or.inr rfl
    · exact Or.inl rfl
  | _ =>
    first
      | (cases hp; done)
      | obtain ⟨rfl,rfl⟩ := Stance.running.inj (h.resolve_right (by rintro ⟨⟩))
        cases hv
        cases r <;> first | exact Or.inr rfl | exact Or.inl rfl

theorem attends_rollback (h : Attends (.handling m (.rollback site e)) j row) :
    Attends (.handling m (.close site (some e))) j row := by
  cases site with
  | processed job started => exact h
  | requeued | failed => rcases h with h | h <;> cases e <;> cases h
  | _ => rcases h with h | h <;> cases h

theorem attends_close {e : Option Exc} (h : Attends (.handling m (.close site e)) j row) :
    Attends (.handling m (leave site e)) j row := by
  cases site with
  | claimed job started => cases e <;> exact h
  | processed job started =>
    rcases e with _ | e
    · rcases h with h | h <;> cases h
    · obtain ⟨rfl,rfl⟩ := Stance.unsure.inj (h.resolve_left (by rintro ⟨⟩))
      exact attends_onFailure m job started e
  | requeued | failed =>
    rcases e with _ | e
    · rcases h with h | h <;> cases h
    · rcases h with h | h <;> cases e <;> cases h
  | _ => rcases h with h | h <;> cases e <;> cases h

/-- The update of `_handle_failure` finds the job started. -/
theorem update_of_started {status : JobStatus} {err : Option String} {r : Except Exc JobRow}
    (hrow : σ.db.jobs.get j = some row) (hst : row.status = .started)
    (he : exec σ (.worker w) o (.updateStatus j status .started err) .ok = some (r,σ')) :
    ∃ new, r = .ok new := by
  rcases exec_updateStatus he with ⟨old,now,again,-,rfl,-⟩ | ⟨-,-,-,hno⟩ | ⟨x,hx,-⟩
  · exact ⟨_,rfl⟩
  · exact absurd hst (hno row hrow)
  · cases hx

/-- A call other than a commit leaves a started job in the same hands. -/
theorem attends_call (hv : view p = .calls c k) (he : exec σ (.worker w) o c out = some (r,σ'))
    (hout : out ≠ .ok → inProcess (.handling m p) = true) (hc : c ≠ .commit)
    (hrow : σ.db.jobs.get j = some row) (hst : row.status = .started)
    (h : Attends (.handling m p) j row) : Attends (.handling m (k r)) j row := by
  have hok : inProcess (.handling m p) = false → out = .ok := by
    intro hp
    by_contra hne
    rw [hout hne] at hp
    cases hp
  cases p with
  | commit site =>
    cases hv
    exact absurd rfl hc
  | rollback site e =>
    cases hv
    obtain rfl := hok rfl
    cases he
    exact attends_rollback h
  | close site e =>
    cases hv
    obtain rfl := hok rfl
    cases he
    exact attends_close h
  | requeue | fail =>
    obtain ⟨rfl,rfl⟩ := Stance.unsure.inj (h.resolve_left (by rintro ⟨⟩))
    cases hv
    obtain rfl := hok rfl
    obtain ⟨new,rfl⟩ := update_of_started hrow hst he
    exact Or.inl rfl
  | _ => first | exact attends_processing rfl hv h | (rcases h with h | h <;> cases h)

end Hands

/-- Only a call or a death takes a job out of a worker's hands. -/
theorem attends_kept (hm : Move threshold s l s') (hc : ∀ w o out, l ≠ .call w o out)
    (hd : ∀ w, l ≠ .die w) {v : ℕ} {j : Uuid} {row : JobRow}
    (h : Attends (s.workers v) j row) : Attends (s'.workers v) j row := by
  have hset : ∀ {w : ℕ} {x : Worker}, ¬ Attends (s.workers w) j row →
      Attends ((s.setWorker w x).workers v) j row := by
    intro w x hw
    have hvw : v ≠ w := by
      rintro rfl
      exact hw h
    simpa [State.setWorker, hvw] using h
  have haway : ∀ {w : ℕ}, stanceOf (s.workers w) = .away → ¬ Attends (s.workers w) j row := by
    rintro w hw (ha | ha) <;> rw [hw] at ha <;> cases ha
  cases hm with
  | call => exact absurd rfl (hc _ _ _)
  | die => exact absurd rfl (hd _)
  | deliver hw hu hi => exact hset (haway (by rw [hw]; rfl))
  | begin hw => exact hset (haway (by rw [hw]; rfl))
  | loop hw => exact hset (haway (by rw [hw]; rfl))
  | stop hw =>
    rcases hw with hw | ⟨m,hw⟩
    · exact hset (haway (by rw [hw]; rfl))
    · exact hset (haway (by rw [hw]; rfl))
  | _ => exact h

/-- A commit of the handler that leaves a row started has claimed it, or is
about another job. -/
theorem started_after_commit (hs : Sound s) {w : ℕ} {m : Message} {site : Site}
    (hw : s.workers w = .handling m (.commit site)) {j : Uuid} {row : JobRow}
    (hrow : (s.world.commit (.worker w)).db.jobs.get j = some row) (hst : row.status = .started) :
    site = .claimed j row ∨
      (s.world.db.jobs.get j = some row ∧ ∀ started, stance (.commit site) ≠ .running j started) := by
  have hop := hs.opened.workers w
  rw [hw] at hop
  have hiso := hs.guarded.fenced.isolated
  rcases jobs_after (hiso.own _) (hiso.ready _) hrow with ⟨hold,hno⟩ | ⟨old,hu,rfl⟩ | ⟨hi,-⟩
  · refine Or.inr ⟨hold,fun started hrun => ?_⟩
    cases site with
    | processed job started' =>
      obtain ⟨rfl,rfl⟩ := Stance.running.inj hrun
      obtain ⟨a,old,new,hws,now,again,hid,-⟩ := hop
      exact hno old new (by rw [hws]; simp) hid
    | requeued | failed =>
      obtain ⟨rfl,rfl⟩ := Stance.running.inj hrun
      obtain ⟨old,new,hws,hid,-⟩ := hop
      exact hno old new (by rw [hws]; simp) hid
    | _ => cases hrun
  · cases site with
    | claimed job started =>
      obtain ⟨x,hws,now,again,rfl,-,-⟩ := hop
      rw [hws] at hu
      obtain ⟨rfl,rfl⟩ := Write.updateJob.inj (List.mem_singleton.mp hu)
      exact Or.inl rfl
    | processed job started =>
      obtain ⟨a,x,y,hws,now,again,rfl,-,rfl⟩ := hop
      rw [hws] at hu
      obtain ⟨-,rfl⟩ : old = x ∧ row = _ := by simpa using hu
      simp at hst
    | requeued | failed =>
      obtain ⟨x,y,hws,-,-,text,now,again,rfl⟩ := hop
      rw [hws] at hu
      obtain ⟨-,rfl⟩ := Write.updateJob.inj (List.mem_singleton.mp hu)
      simp at hst
    | _ =>
      rw [show s.world.writesOf _ = [] from hop] at hu
      cases hu
  · exact absurd hi (worker_inserts_nothing hop)

/-- A commit of a request leaves no new row started. -/
theorem started_after_serve (hs : Sound s) {q : ℕ} {x : Request} {k : Except Exc Unit → Stage}
    (hq : s.requests q = some x) (hv : viewStage threshold x.stage = .calls .commit k) {j : Uuid}
    {row : JobRow} (hrow : (s.world.commit (.request q)).db.jobs.get j = some row)
    (hst : row.status = .started) : s.world.db.jobs.get j = some row := by
  have hop := hs.opened.requests q
  rw [hq] at hop
  have hiso := hs.guarded.fenced.isolated
  rcases jobs_after (hiso.own _) (hiso.ready _) hrow with ⟨hold,-⟩ | ⟨old,hu,-⟩ | ⟨hi,-⟩
  · exact hold
  · rcases stage_at_commit hv hop with hws | ⟨_,-,hws⟩ | ⟨_,_,_,-,hws,-⟩ <;>
      simp [hws, -mem_writesOf] at hu
  · rcases stage_at_commit hv hop with hws | ⟨z,hz,hws⟩ | ⟨_,_,_,-,hws,-⟩
    · simp [hws, -mem_writesOf] at hi
    · obtain rfl : row = z := by simpa [hws, -mem_writesOf] using hi
      simp only [openedRequest, hz, openedStage] at hop
      obtain ⟨-,-,dto,id,n,now,again,rfl⟩ := hop
      cases hst
    · simp [hws, -mem_writesOf] at hi

theorem Attended.step (h : Attended s) (hs : Sound s) (hok : Calm threshold f s l)
    (hm : Move threshold s l s') : Attended s' := by
  intro j row hrow hst
  cases l with
  | call w o out =>
    cases hm with
    | @call _ m p c k _ _ r σ hw hv he =>
      have hget : σ.db.jobs.get j = some row := hrow
      have hout : out ≠ .ok → inProcess (.handling m p) = true := by
        intro hne
        have := hok.1 hne
        rwa [hw] at this
      have hother : ∀ v, v ≠ w → Attends (s.workers v) j row →
          ∃ v, Attends ((s.setWorker w (.handling m (k r))).workers v) j row := by
        intro v hvw ha
        exact ⟨v,by simpa [State.setWorker, hvw] using ha⟩
      by_cases hc : c = .commit
      · subst hc
        obtain ⟨site,rfl⟩ := phase_at_commit hv
        obtain rfl : out = .ok := by
          by_contra hne
          have := hout hne
          cases this
        cases hv
        cases he
        rcases started_after_commit hs hw hget hst with rfl | ⟨hold,hrun⟩
        · exact ⟨w,Or.inl (by simp [State.setWorker, stanceOf, stance])⟩
        · obtain ⟨v,ha⟩ := h j row hold hst
          refine hother v ?_ ha
          rintro rfl
          rw [hw] at ha
          rcases ha with ha | ha
          · exact hrun row ha
          · cases site <;> cases ha
      · rw [(exec_effect he).db hc] at hget
        obtain ⟨v,ha⟩ := h j row hget hst
        by_cases hvw : v = w
        · subst hvw
          rw [hw] at ha
          exact ⟨v,by simpa [State.setWorker] using attends_call hv he hout hc hget hst ha⟩
        · exact hother v hvw ha
  | serve q o out =>
    cases hm with
    | @serve _ x c k _ _ r σ hq hv he =>
      have hrow : σ.db.jobs.get j = some row := hrow
      by_cases hc : c = .commit
      · subst hc
        obtain ⟨-,rfl⟩ | ⟨-,rfl,-⟩ := exec_commit he
        · exact h j row (started_after_serve hs hq hv hrow hst) hst
        · exact h j row hrow hst
      · rw [(exec_effect he).db hc] at hrow
        exact h j row hrow hst
  | die w => exact absurd hok (by simp [Calm])
  | _ =>
    rw [(move_idle hm (by simp) (by simp)).db] at hrow
    obtain ⟨v,ha⟩ := h j row hrow hst
    exact ⟨v,attends_kept hm (by simp) (by simp) ha⟩

theorem calm_invariant {t : List (State × Label)} (ht : Trail (step threshold) init t s)
    (ha : Allowed (Calm threshold f) t) : Faithful f s ∧ Attended s := by
  refine ht.invariant (Calm threshold f) (I := fun s => Faithful f s ∧ Attended s) ⟨⟨?_,?_⟩,?_⟩
    (fun s l s' hr hs hok hstep => ?_) ha
  · rintro w x err hx
    cases hx
  · exact ⟨fun j n text he => (by cases he),fun p j n he => (by cases he)⟩
  · rintro j row hrow
    cases hrow
  · have hsound := sound_of_reachable hr
    exact ⟨hs.1.step hsound hok hstep,hs.2.step hsound hok (step_move hstep)⟩

/-- Once nothing is left to do, no job is queued or started. -/
theorem Quiescent.finished (hq : Quiescent s) {t : List (State × Label)}
    (ht : Trail (step threshold) init t s) (ha : Allowed (Calm threshold f) t) {j : Uuid}
    {row : JobRow} (hrow : s.world.db.jobs.get j = some row) :
    row.status = .completed ∨ row.status = .failed := by
  have hidle : ∀ w, stanceOf (s.workers w) = .away ∧ undecided (s.workers w) = false := by
    intro w
    have hw := hq.workers w
    cases hx : s.workers w with
    | idle => exact ⟨rfl,rfl⟩
    | dead => exact ⟨rfl,rfl⟩
    | _ =>
      rw [hx] at hw
      cases hw
  cases hst : row.status with
  | completed => exact Or.inl rfl
  | failed => exact Or.inr rfl
  | started =>
    obtain ⟨w,hw | hw⟩ := (calm_invariant ht ha).2 j row hrow hst <;>
    · rw [(hidle w).1] at hw
      cases hw
  | queued =>
    have hsteady : Allowed Steady t := fun x hx => (ha x hx).steady
    cases (tokens_of_trail ht hsteady).2 j ⟨row,hrow,hst⟩ with
    | ready hm =>
      rw [hq.ready] at hm
      cases hm
    | @held w m hu =>
      rw [hq.unsettled w] at hu
      cases hu
    | @retry w m p hw hp hu =>
      rw [hq.unsettled w] at hu
      cases hu
    | @created r x hr =>
      have hx := hq.requests r
      rcases hy : s.requests r with _ | ⟨account,stage⟩
      · rw [hy] at hr
        cases hr
      · rw [hy] at hr hx
        cases stage with
        | enqueueJob row => cases hx
        | _ => cases hr

def ending (row : JobRow) : Ending String :=
  if row.status = .completed then .succeeded row.attempts row.errorMessage
  else .gaveUp row.attempts row.errorMessage

/-- The final row of a job is the result of the sequential loop over its
attempts: completed at the first success within the budget, with the error
of the attempt before, and failed with the last error if there is none. -/
theorem refines_retry_loop {t : List (State × Label)} (ht : Trail (step threshold) init t s)
    (ha : Allowed (Calm threshold f) t) (hq : Quiescent s) (j : Uuid) (row : JobRow)
    (hrow : s.world.db.jobs.get j = some row) (hmax : 1 ≤ row.maxAttempts) :
    ending row = retryLoop (f j) row.maxAttempts ∧
    (∀ k, 1 ≤ k → k ≤ row.maxAttempts → f j k = none → (∀ i, 1 ≤ i → i < k → f j i ≠ none) →
      row.status = .completed ∧ row.attempts = k ∧
        row.errorMessage = if k = 1 then none else f j (k-1)) ∧
    ((∀ i, 1 ≤ i → i ≤ row.maxAttempts → f j i ≠ none) →
      row.status = .failed ∧ row.attempts = row.maxAttempts ∧
        row.errorMessage = f j row.maxAttempts) := by
  have hb := book_of_reachable ⟨t,ht⟩
  have hbudget := book_budget hb hrow hmax
  have hconf := book_conforms hb (calm_invariant ht ha).1.history hrow
  have hreport : ∀ k, 1 ≤ k → report (f j) (k-1) = if k = 1 then none else f j (k-1) := by
    intro k hk
    split
    · rename_i h
      subst h
      rfl
    · exact report_of_pos (by omega)
  have hend : ending row = retryLoop (f j) row.maxAttempts := by
    unfold Conforms at hconf
    unfold InBudget at hbudget
    rcases hq.finished ht ha hrow with hst | hst <;> simp only [hst] at hconf hbudget
    · obtain ⟨hpos,hfails,herr,hsucc⟩ := hconf
      rw [retryLoop_success hpos hbudget.2 hfails hsucc, ending, if_pos hst, herr]
    · rw [hbudget] at hconf
      rw [retryLoop_failure hmax hconf.1, ending, if_neg (by simp [hst]), hbudget, hconf.2,
        report_of_pos hmax]
  refine ⟨hend,fun k hk hle hs hf => ?_,fun hf => ?_⟩
  · rw [retryLoop_success hk hle hf hs, ending] at hend
    split at hend
    · rename_i hst
      obtain ⟨rfl,herr⟩ := Ending.succeeded.inj hend
      exact ⟨hst,rfl,herr.trans (hreport _ hk)⟩
    · cases hend
  · rw [retryLoop_failure hmax hf, ending] at hend
    split at hend
    · cases hend
    · rename_i hst
      obtain ⟨hatt,herr⟩ := Ending.gaveUp.inj hend
      exact ⟨(hq.finished ht ha hrow).resolve_left hst,hatt,herr⟩

end Calm

def calmly (threshold : ℕ) (f : Outcomes) (s : State) : Label → Bool
  | .die _ | .lose _ | .abort _ => false
  | .call w o out => (out = .ok || inProcess (s.workers w)) &&
      (step threshold s (.call w o out)).all fun s' =>
        (processEnd (s'.workers w)).all fun x => f x.1.1 x.1.2 = x.2
  | .serve r _ out => out = .ok || !(commits (s.requests r) || (announces (s.requests r)).isSome)
  | _ => true

theorem calm_of_calmly {threshold : ℕ} {f : Outcomes} {s : State} {l : Label}
    (h : calmly threshold f s l = true) : Calm threshold f s l := by
  cases l with
  | die w => cases h
  | lose w => cases h
  | abort r => cases h
  | call w o out =>
    simp only [calmly, Bool.and_eq_true, Bool.or_eq_true, decide_eq_true_eq] at h
    refine ⟨fun hne => h.1.resolve_left hne,fun s' x err hs hx => ?_⟩
    have := h.2
    rw [hs] at this
    simpa [hx] using this
  | serve r o out =>
    intro hx
    simp only [calmly, Bool.or_eq_true, decide_eq_true_eq, Bool.not_eq_true', Bool.or_eq_false_iff,
      Option.isSome_eq_false_iff, Option.isNone_iff_eq_none] at h
    refine h.resolve_right (fun hno => ?_)
    rcases hx with hx | hx
    · rw [hno.1] at hx
      cases hx
    · exact hx hno.2
  | _ => trivial

def retryRun : List Label := List.flatten [publishRun,
  List.replicate 3 (.serve 1 {} .ok),
  [.deliver 0 0,.begin 0],List.replicate 9 (.call 0 {} .ok),
  [.call 0 {} (.raises (.unmapped "boom"))],List.replicate 7 (.call 0 {} .ok),
  [.loop 0,.deliver 0 0,.begin 0],List.replicate 11 (.call 0 {} .ok),
  [.call 0 { uuid := 3 } .ok],List.replicate 4 (.call 0 {} .ok),[.loop 0]]

def retryOutcomes : Outcomes := fun _ n => if n = 1 then some "boom" else none

def restsAt (s : State) (k : ℕ) : Bool :=
  (s.world.unsettled k).isNone && resting (s.workers k) && answered (s.requests k)

theorem quiescent_after {ls : List Label} {n : ℕ} (hrun : (run (step 100) init ls).isSome = true)
    (hbelow : ls.all (below n) = true) (hready : (after ls).world.ready = [])
    (hfirst : (List.range n).all (restsAt (after ls)) = true) : Quiescent (after ls) := by
  have hrest : ∀ k, restsAt (after ls) k = true := by
    intro k
    by_cases hk : n ≤ k
    · obtain ⟨hw,hu,hr⟩ := untouched_after hrun hbelow hk
      simp [restsAt, hw, hu, hr, resting, answered]
    · exact List.all_eq_true.mp hfirst k (List.mem_range.mpr (by omega))
  simp only [restsAt, Bool.and_eq_true, Option.isNone_iff_eq_none] at hrest
  exact ⟨hready,fun w => (hrest w).1.1,fun w => (hrest w).1.2,fun r => (hrest r).2⟩

theorem quiescent_retryRun : Quiescent (after retryRun) := by
  have hrun : ((run (step 100) init retryRun).isSome && retryRun.all (below 2) &&
      (after retryRun).world.ready.isEmpty && (List.range 2).all (restsAt (after retryRun))) =
        true := by decide +kernel
  simp only [Bool.and_eq_true, List.isEmpty_iff] at hrun
  obtain ⟨⟨⟨hsome,hbelow⟩,hready⟩,hfirst⟩ := hrun
  exact quiescent_after hsome hbelow hready hfirst

theorem refines_retry_loop_sample :
    ∃ row, (after retryRun).world.db.jobs.get 2 = some row ∧ 1 ≤ row.maxAttempts ∧
      row.status = .completed ∧ row.attempts = 2 ∧ row.errorMessage = some "boom" := by
  have hrun : (passes (step 100) (calmly 100 retryOutcomes) init retryRun &&
      ((after retryRun).world.db.jobs.get 2).any (fun row => row.maxAttempts = 3)) = true := by
    decide +kernel
  simp only [Bool.and_eq_true] at hrun
  obtain ⟨t,ht,ha,-⟩ := trail_of_passes retryRun hrun.1
  have hcalm : Allowed (Calm 100 retryOutcomes) t := fun x hx => calm_of_calmly (ha x hx)
  obtain ⟨row,hrow,hmax⟩ := (Option.any_eq_true _ _).mp hrun.2
  simp only [decide_eq_true_eq] at hmax
  have hm : 1 ≤ row.maxAttempts := by omega
  obtain ⟨hst,hatt,herr⟩ := (refines_retry_loop ht hcalm quiescent_retryRun 2 row hrow hm).2.1 2
    (by omega) (by omega) rfl (fun i hi hlt => by
      obtain rfl : i = 1 := by omega
      simp [retryOutcomes])
  exact ⟨row,hrow,hm,hst,hatt,herr⟩

end DocPipeline.RetryLoop
