import DocPipeline.Tenants
import DocPipeline.Budget

/-!
# Where the stored artifact comes from

A document has one artifact key, which every run of `process` for it writes.
The row that names a run is written later, in the transaction that completes
the job. Each attempt puts one object, and from then to its commit no other
process writes that key, so the row is right when it is committed. It stays
right until another run puts other bytes.
-/

set_option autoImplicit false

namespace DocPipeline.Provenance
open DocPipeline.Identifiers DocPipeline.Records DocPipeline.Database DocPipeline.Calls
open DocPipeline.Consumer DocPipeline.Routes DocPipeline.System DocPipeline.Moves
open DocPipeline.Effects DocPipeline.Answers DocPipeline.Transactions DocPipeline.Pending
open DocPipeline.Reservations DocPipeline.Stances DocPipeline.Engagement DocPipeline.Knowledge
open DocPipeline.Ledger DocPipeline.Bookkeeping DocPipeline.Exclusion DocPipeline.Publication
open DocPipeline.Budget DocPipeline.Artifacts DocPipeline.ReadYourWrites DocPipeline.Tenants
open LabelledRuns EffectProgram KeyedTable

structure Output where
  job : Uuid
  attempt : ℕ
  document : Uuid
  key : String
  content : Bytes

def putBy (s : State) : Label → Option Output
  | .call w _ out => match s.workers w with
    | .handling _ (.processPut job started row document markdown) =>
      if Outcome.took out then some ⟨job,started.attempts,row.documentId,
        artifactKey row.accountId document.id,markdown.toUTF8⟩ else none
    | _ => none
  | _ => none

/-- The row names the run whose bytes are stored: the attempt that completed
the job of the row put exactly one object, and it is the one under the key. -/
def Traced (s : State) (a : ArtifactRow) : Prop :=
  ∃ p n content, .moved p a.jobId .started .completed n ∈ s.world.history ∧
    (∀ c, .put a.jobId n c ∈ s.world.history ↔ c = content) ∧
    s.world.objects a.objectKey = some content

/-- A step puts other bytes than the stored ones for a document that has an
artifact row. -/
def overwrites (s : State) (l : Label) : Bool :=
  (putBy s l).any fun x => (s.world.db.artifacts.get (x.document,.markdown)).isSome &&
    s.world.objects x.key ≠ some x.content

def unput : Phase → Option (Uuid × JobRow)
  | .close (.claimed job started) none => some (job,started)
  | .processJob job started => some (job,started)
  | .processDocument job started _ => some (job,started)
  | .processFetch job started _ _ => some (job,started)
  | .processParse job started _ _ _ => some (job,started)
  | .processPut job started _ _ _ => some (job,started)
  | _ => none

def unputOf : Worker → Option (Uuid × JobRow)
  | .handling _ p => unput p
  | _ => none

def produced : Phase → Option (Uuid × JobRow)
  | .processArtifact job started _ _ _ => some (job,started)
  | .processComplete job started _ _ _ => some (job,started)
  | .commit (.processed job started) => some (job,started)
  | _ => none

def producedOf : Worker → Option (Uuid × JobRow)
  | .handling _ p => produced p
  | _ => none

section Outputs
variable {threshold : ℕ} {s s' : State} {l : Label} {x : Output}

theorem putBy_eq_some : putBy s l = some x ↔ ∃ w o out m job started row document markdown,
    l = .call w o out ∧ Outcome.took out = true ∧
    s.workers w = .handling m (.processPut job started row document markdown) ∧
    x = ⟨job,started.attempts,row.documentId,artifactKey row.accountId document.id,
      markdown.toUTF8⟩ := by
  constructor
  · intro h
    cases l with
    | call w o out =>
      simp only [putBy] at h
      split at h
      · rename_i m job started row document markdown hw
        split at h
        · rename_i htook
          exact ⟨w,o,out,m,job,started,row,document,markdown,rfl,htook,hw,
            (Option.some.inj h).symm⟩
        · cases h
      · cases h
    | _ => cases h
  · rintro ⟨w,o,out,m,job,started,row,document,markdown,rfl,htook,hw,rfl⟩
    simp [putBy, hw, htook]

/-- The bytes of a `put_object` are stored and written down. -/
theorem put_effect (hm : Move threshold s l s') (hx : putBy s l = some x) :
    s'.world.objects = Function.update s.world.objects x.key (some x.content) ∧
      s'.world.history = .put x.job x.attempt x.content::s.world.history ∧
      s'.world.db = s.world.db := by
  obtain ⟨w,o,out,m,job,started,row,document,markdown,rfl,htook,hw,rfl⟩ := putBy_eq_some.mp hx
  cases hm with
  | call hw' hv he =>
    rw [hw] at hw'
    obtain ⟨rfl,rfl⟩ := Worker.handling.inj hw'
    cases hv
    cases out with
    | raises f => cases htook
    | ok =>
      cases he
      exact ⟨rfl,rfl,rfl⟩
    | raisesAfter f =>
      cases he
      exact ⟨rfl,rfl,rfl⟩

/-- An attempt puts an object only at its `put_object`. -/
theorem put_step (hm : Move threshold s l s') {job : Uuid} {n : ℕ} {c : Bytes}
    (h : .put job n c ∈ s'.world.history) : .put job n c ∈ s.world.history ∨
      ∃ x, putBy s l = some x ∧ x.job = job ∧ x.attempt = n ∧ x.content = c := by
  by_cases hput : ∃ x, putBy s l = some x
  · obtain ⟨x,hx⟩ := hput
    rw [(put_effect hm hx).2.1] at h
    rcases List.mem_cons.mp h with h | h
    · obtain ⟨rfl,rfl,rfl⟩ := Event.put.inj h
      exact Or.inr ⟨x,hx,rfl,rfl,rfl⟩
    · exact Or.inl h
  left
  cases hm with
  | @call v m p c' k o out y σ hv hview he =>
    refine event_effect (exec_effect he) rfl ?_
    rcases List.mem_append.mp h with h | h
    · exfalso
      rcases List.mem_append.mp h with h | h
      · cases hk : k y <;> simp [hk, entered] at h
      · split at h
        · rename_i htook
          cases p with
          | processPut j started row document markdown =>
            exact hput ⟨_,putBy_eq_some.mpr ⟨v,o,out,m,j,started,row,document,markdown,rfl,htook,
              hv,rfl⟩⟩
          | _ => simp [performed] at h
        · cases h
    · exact h
  | @serve q z c' k o out y σ hq hview he =>
    refine event_effect (exec_effect he) rfl ?_
    rcases List.mem_append.mp h with h | h
    · exfalso
      split at h
      · cases hz : z.stage <;> simp [hz, performedStage] at h
      · cases h
    · exact h
  | stop hw => simpa [State.endWorker, World.discard] using h
  | die hw => simpa [State.endWorker, World.discard] using h
  | lose hw hu => simpa using h
  | receive hq hw =>
    rcases List.mem_cons.mp h with h | h
    · cases h
    · exact h
  | _ => exact h

/-- Artifact keys are written by `put_object` only: an upload goes to a raw
key. -/
theorem artifact_kept (hh : Handing s) (hm : Move threshold s l s') {a : AccountId} {d : Uuid}
    (hno : ∀ x, putBy s l = some x → x.key ≠ artifactKey a d) :
    s'.world.objects (artifactKey a d) = s.world.objects (artifactKey a d) := by
  by_cases hput : ∃ x, putBy s l = some x
  · obtain ⟨x,hx⟩ := hput
    rw [(put_effect hm hx).1]
    exact Function.update_of_ne (Ne.symm (hno x hx)) _ _
  cases hm with
  | @call v m p c k o out y σ hv hview he =>
    have heff := exec_effect he
    by_cases hc : ∃ key content, c = .putObject key content
    · obtain ⟨key,content,rfl⟩ := hc
      obtain ⟨job,started,row,document,markdown,rfl,rfl⟩ := view_putObject hview
      cases out with
      | raises f =>
        cases he
        rfl
      | ok =>
        exact absurd ⟨_,putBy_eq_some.mpr ⟨v,o,_,m,job,started,row,document,markdown,rfl,rfl,hv,
          rfl⟩⟩ hput
      | raisesAfter f =>
        exact absurd ⟨_,putBy_eq_some.mpr ⟨v,o,_,m,job,started,row,document,markdown,rfl,rfl,hv,
          rfl⟩⟩ hput
    · exact congrFun (heff.objects (fun key content hk => hc ⟨key,content,hk⟩)) _
  | serve hq hview he =>
    refine congrFun ((exec_effect he).objects (fun key content hk => ?_)) _
    subst hk
    exact viewStage_putObject hview
  | stop hv => simp [State.endWorker, World.discard]
  | die hv => simp [State.endWorker, World.discard]
  | lose hv hu => simp
  | @upload account key content hu =>
    rcases handed_key hh hu with ⟨e,-,he⟩ | ⟨e,-,he⟩
    · obtain rfl := Url.put.inj he
      exact Function.update_of_ne (Ne.symm (rawKey_ne_artifactKey account a e d)) (some content)
        s.world.objects
    · cases he
  | _ => rfl

end Outputs

section Puts
variable {threshold : ℕ} {s s' : State} {l : Label} {x : Output}

structure Puts (s : State) : Prop where
  once : ∀ job n c c', .put job n c ∈ s.world.history → .put job n c' ∈ s.world.history → c = c'
  bound : ∀ job n c, .put job n c ∈ s.world.history →
    ∃ row, s.world.db.jobs.get job = some row ∧ n ≤ row.attempts
  fresh : ∀ w job started, unputOf (s.workers w) = some (job,started) →
    ∀ c, .put job started.attempts c ∉ s.world.history
  stored : ∀ w job started, producedOf (s.workers w) = some (job,started) →
    ∃ c, .put job started.attempts c ∈ s.world.history ∧
      s.world.objects (artifactKey started.accountId started.documentId) = some c

theorem stance_unput {p : Phase} {job : Uuid} {started : JobRow}
    (h : unput p = some (job,started)) : stance p = .running job started := by
  cases p with
  | close site e =>
    cases site with
    | claimed j b =>
      cases e with
      | none =>
        cases h
        rfl
      | some e => cases h
    | _ => cases h
  | _ =>
    cases h <;> rfl

theorem stance_produced {p : Phase} {job : Uuid} {started : JobRow}
    (h : produced p = some (job,started)) : stance p = .running job started := by
  cases p with
  | commit site =>
    cases site with
    | processed j b =>
      cases h
      rfl
    | _ => cases h
  | _ =>
    cases h <;> rfl

theorem running_of_unput {w : ℕ} {job : Uuid} {started : JobRow}
    (h : unputOf (s.workers w) = some (job,started)) :
    stanceOf (s.workers w) = .running job started := by
  cases hw : s.workers w with
  | handling m p =>
    rw [hw] at h
    exact stance_unput h
  | _ =>
    rw [hw] at h
    cases h

theorem running_of_produced {w : ℕ} {job : Uuid} {started : JobRow}
    (h : producedOf (s.workers w) = some (job,started)) :
    stanceOf (s.workers w) = .running job started := by
  cases hw : s.workers w with
  | handling m p =>
    rw [hw] at h
    exact stance_produced h
  | _ =>
    rw [hw] at h
    cases h

/-- The worker of a `put_object`, its claim and its key. -/
theorem putBy_running (hs : Sound s) (hx : putBy s l = some x) : ∃ w o out started,
    l = .call w o out ∧ unputOf (s.workers w) = some (x.job,started) ∧
      started.attempts = x.attempt ∧ started.documentId = x.document ∧
      x.key = artifactKey started.accountId started.documentId := by
  obtain ⟨w,o,out,m,job,started,row,document,markdown,rfl,-,hw,rfl⟩ := putBy_eq_some.mp hx
  have hk := hs.informed.workers w
  rw [hw] at hk
  obtain ⟨rfl,hf⟩ := hk
  exact ⟨w,o,out,row,rfl,by rw [hw]; rfl,rfl,rfl,by rw [← hf.id]⟩

/-- Two workers that run jobs of one document are one worker. -/
theorem running_unique (hs : Sound s) (hb : Book s.world.db s.world.history) {v w : ℕ} {i j : Uuid}
    {a b : JobRow} (hv : stanceOf (s.workers v) = .running i a)
    (hw : stanceOf (s.workers w) = .running j b) (hdoc : a.documentId = b.documentId) : v = w := by
  have hhv := hs.engaged.holds v
  have hhw := hs.engaged.holds w
  rw [hv] at hhv
  rw [hw] at hhw
  obtain ⟨⟨ra,hca⟩,hcur⟩ := hhv
  obtain ⟨⟨rb,hcb⟩,hcur'⟩ := hhw
  obtain rfl := started_unique hb hcur hcur' hca.status hcb.status hdoc
  obtain rfl := Option.some.inj (hcur.symm.trans hcur')
  exact hs.engaged.single v w i a a (by rw [hv]; rfl) (by rw [hw]; rfl) rfl

theorem unput_onFailure (job : Uuid) (started : JobRow) (e : Exc) :
    unput (onFailure job started e) = none := by
  unfold onFailure
  split <;> rfl

theorem produced_onFailure (job : Uuid) (started : JobRow) (e : Exc) :
    produced (onFailure job started e) = none := by
  unfold onFailure
  split <;> rfl

theorem unput_leave {site : Site} {e : Option Exc} {x : Uuid × JobRow}
    (h : unput (leave site e) = some x) : e = none ∧ unput (.close site none) = some x := by
  cases site with
  | claimed job started =>
    cases e with
    | none => exact ⟨rfl,h⟩
    | some e => cases h
  | processed job started =>
    cases e with
    | none => cases h
    | some e =>
      rw [leave, unput_onFailure] at h
      cases h
  | requeued | failed =>
    rcases e with _ | e
    · cases h
    · cases e <;> cases h
  | _ => cases e <;> cases h

theorem produced_leave (site : Site) (e : Option Exc) : produced (leave site e) = none := by
  cases site with
  | processed job started =>
    cases e with
    | none => rfl
    | some e =>
      rw [leave]
      exact produced_onFailure job started e
  | requeued | failed =>
    rcases e with _ | e
    · rfl
    · cases e <;> rfl
  | _ => cases e <;> rfl

/-- A worker that has not put its object has just claimed its job, or had not
put it before. -/
theorem unput_call {p : Phase} {c : Call} {k : Except Exc c.Resp → Phase} {job : Uuid}
    {started : JobRow} (hv : view p = .calls c k) (r : Except Exc c.Resp)
    (h : unput (k r) = some (job,started)) :
    (unput p = some (job,started) ∧
      ∀ j b row document markdown, p ≠ .processPut j b row document markdown) ∨
      k r = .close (.claimed job started) none := by
  cases p with
  | processJob j b =>
    cases hv
    rcases r with e | _ | row <;> cases h
    exact Or.inl ⟨rfl,by simp⟩
  | processDocument j b row =>
    cases hv
    rcases r with e | _ | document <;> cases h
    exact Or.inl ⟨rfl,by simp⟩
  | processFetch j b row document =>
    cases hv
    rcases r with e | content <;> cases h
    exact Or.inl ⟨rfl,by simp⟩
  | processParse j b row document content =>
    cases hv
    rcases r with e | markdown <;> cases h
    exact Or.inl ⟨rfl,by simp⟩
  | commit site =>
    cases hv
    rcases r with e | u
    · cases h
    · cases site with
      | claimed j b =>
        cases h
        exact Or.inr rfl
      | _ => cases h
  | close site e =>
    cases hv
    cases r with
    | error e' =>
      obtain ⟨he,-⟩ := unput_leave h
      cases he
    | ok u =>
      obtain ⟨rfl,hx⟩ := unput_leave h
      exact Or.inl ⟨hx,by simp⟩
  | rollback site e =>
    cases hv
    cases r <;> cases site <;> cases h
  | lookup j =>
    cases hv
    rcases r with e | _ | row
    · cases h
    · cases h
    · dsimp only at h
      split at h <;> cases h
  | claim j =>
    cases hv
    rcases r with e | b
    · cases e <;> cases h
    · cases h
  | enqueue j b =>
    cases hv
    rcases r with e | u
    · cases e <;> cases h
    · cases h
  | ackSuccess j b =>
    cases hv
    rcases r with e | u
    · dsimp only at h
      rw [unput_onFailure] at h
      cases h
    · cases h
  | returned => cases hv
  | raised d e => cases hv
  | _ =>
    cases hv
    cases r <;> cases h

/-- A worker that has put its object had put it before, or has just done so. -/
theorem produced_call {p : Phase} {c : Call} {k : Except Exc c.Resp → Phase} {job : Uuid}
    {started : JobRow} (hv : view p = .calls c k) (r : Except Exc c.Resp)
    (h : produced (k r) = some (job,started)) :
    produced p = some (job,started) ∨ ∃ row document markdown,
      p = .processPut job started row document markdown ∧ ∃ v, r = .ok v := by
  cases p with
  | processPut j b row document markdown =>
    cases hv
    rcases r with e | u <;> cases h
    exact Or.inr ⟨row,document,markdown,rfl,u,rfl⟩
  | processArtifact j b row document markdown =>
    cases hv
    rcases r with e | a <;> cases h
    exact Or.inl rfl
  | processComplete j b row document markdown =>
    cases hv
    rcases r with e | b' <;> cases h
    exact Or.inl rfl
  | processJob j b =>
    cases hv
    rcases r with e | _ | row <;> cases h
  | processDocument j b row =>
    cases hv
    rcases r with e | _ | document <;> cases h
  | close site e =>
    cases hv
    cases r <;> · rw [produced_leave] at h; cases h
  | lookup j =>
    cases hv
    rcases r with e | _ | row
    · cases h
    · cases h
    · dsimp only at h
      split at h <;> cases h
  | claim j =>
    cases hv
    rcases r with e | b
    · cases e <;> cases h
    · cases h
  | enqueue j b =>
    cases hv
    rcases r with e | u
    · cases e <;> cases h
    · cases h
  | ackSuccess j b =>
    cases hv
    rcases r with e | u
    · dsimp only at h
      rw [produced_onFailure] at h
      cases h
    · cases h
  | returned => cases hv
  | raised d e => cases hv
  | _ =>
    cases hv
    cases r <;> cases h

theorem unput_fresh {y : Worker} (h : fresh y) : unputOf y = none ∧ producedOf y = none := by
  cases y with
  | handling m p =>
    obtain rfl : p = start m.body := h
    change unput (start m.body) = none ∧ produced (start m.body) = none
    unfold start
    cases decode m.body <;> exact ⟨rfl,rfl⟩
  | _ => exact ⟨rfl,rfl⟩

theorem unput_step (hm : Move threshold s l s') {w : ℕ} {job : Uuid} {started : JobRow}
    (h : unputOf (s'.workers w) = some (job,started)) :
    (unputOf (s.workers w) = some (job,started) ∧ ∀ x o out, putBy s l = some x → l ≠ .call w o out) ∨
      Claiming s l s' w job started := by
  have hm' := hm
  by_cases hcall : ∃ o out, l = .call w o out
  · obtain ⟨o,out,rfl⟩ := hcall
    cases hm with
    | @call _ m p c k _ _ y σ hw hv he =>
      have hk : unput (k y) = some (job,started) := by
        simpa [State.setWorker, unputOf] using h
      rcases unput_call hv y hk with ⟨hp,hno⟩ | hclose
      · refine Or.inl ⟨by rw [hw]; exact hp,fun x o' out' hx => ?_⟩
        obtain ⟨v,_,_,m',j,b,row,document,markdown,hl,-,hv',-⟩ := putBy_eq_some.mp hx
        obtain ⟨rfl,-,-⟩ := Label.call.inj hl
        obtain ⟨-,rfl⟩ := Worker.handling.inj (hw.symm.trans hv')
        exact absurd rfl (hno j b row document markdown)
      · have hw' : ({ s.setWorker w (.handling m (k y)) with
            world := World.record σ (entered (k y) ++ if Outcome.took out then performed p else []) } :
              State).workers w = .handling m (.close (.claimed job started) none) := by
          simp [State.setWorker, hclose]
        rcases closing_step hm' hw' with hw₀ | hc
        · have hpc := (Worker.handling.inj (hw.symm.trans hw₀)).2
          subst hpc
          cases hv
          exfalso
          cases y <;> cases hclose
        · exact Or.inr hc
  · left
    have hne : ∀ x o out, putBy s l = some x → l ≠ .call w o out :=
      fun x o out _ hl => hcall ⟨o,out,hl⟩
    by_cases hat : workerAt l = some w
    · have hi := move_idle hm (fun v o out hl => ?_) (fun r o out hl => ?_)
      · rcases hi.workers w with he | hf
        · exact ⟨by rw [← he]; exact h,hne⟩
        · rw [(unput_fresh hf).1] at h
          cases h
      · subst hl
        obtain rfl := Option.some.inj hat
        exact hcall ⟨o,out,rfl⟩
      · subst hl
        cases hat
    · rw [(frame_worker hm hat).1] at h
      exact ⟨h,hne⟩

theorem produced_step (hm : Move threshold s l s') {w : ℕ} {job : Uuid} {started : JobRow}
    (h : producedOf (s'.workers w) = some (job,started)) :
    producedOf (s.workers w) = some (job,started) ∨
      ∃ o out m row document markdown, l = .call w o out ∧ Outcome.took out = true ∧
        s.workers w = .handling m (.processPut job started row document markdown) := by
  by_cases hcall : ∃ o out, l = .call w o out
  · obtain ⟨o,out,rfl⟩ := hcall
    cases hm with
    | @call _ m p c k _ _ y σ hw hv he =>
      have hk : produced (k y) = some (job,started) := by
        simpa [State.setWorker, producedOf] using h
      rcases produced_call hv y hk with hp | ⟨row,document,markdown,rfl,v,rfl⟩
      · exact Or.inl (by rw [hw]; exact hp)
      · obtain ⟨rfl,-⟩ := exec_ok he
        exact Or.inr ⟨o,.ok,m,row,document,markdown,rfl,rfl,hw⟩
  · left
    by_cases hat : workerAt l = some w
    · have hi := move_idle hm (fun v o out hl => ?_) (fun r o out hl => ?_)
      · rcases hi.workers w with he | hf
        · rw [← he]
          exact h
        · rw [(unput_fresh hf).2] at h
          cases h
      · subst hl
        obtain rfl := Option.some.inj hat
        exact hcall ⟨o,out,rfl⟩
      · subst hl
        cases hat
    · rwa [(frame_worker hm hat).1] at h

/-- The attempt of a claim that is being committed is ahead of its row. -/
theorem Puts.ahead (h : Puts s) (hs : Sound s) {w : ℕ} {job : Uuid} {started : JobRow}
    (hc : Claiming s l s' w job started) (c : Bytes) :
    .put job started.attempts c ∉ s.world.history := by
  intro hput
  obtain ⟨row,hrow,hle⟩ := h.bound job _ c hput
  obtain ⟨old,hold,hatt⟩ := Claiming.row hs hc
  obtain rfl := Option.some.inj (hrow.symm.trans hold)
  omega

theorem puts_fresh (h : Puts s) (hs : Sound s) (hm : Move threshold s l s') {w : ℕ} {job : Uuid}
    {started : JobRow} (hu : unputOf (s'.workers w) = some (job,started)) (c : Bytes) :
    .put job started.attempts c ∉ s'.world.history := by
  intro hput
  rcases put_step hm hput with hput | ⟨x,hx,rfl,hatt,-⟩
  · rcases unput_step hm hu with ⟨hu,-⟩ | hc
    · exact h.fresh w job started hu c hput
    · exact h.ahead hs hc c hput
  · obtain ⟨v,o,out,b,rfl,hv,hb,-⟩ := putBy_running hs hx
    rcases unput_step hm hu with ⟨hu,hne⟩ | hc
    · obtain rfl := hs.engaged.single v w x.job b started (by rw [running_of_unput hv]; rfl)
        (by rw [running_of_unput hu]; rfl) (hb.trans hatt)
      exact hne x o out hx rfl
    · obtain ⟨o',out',hl⟩ := hc.label
      obtain ⟨rfl,-,-⟩ := Label.call.inj hl
      obtain ⟨m,hw⟩ := hc.before
      rw [hw] at hv
      cases hv

/-- The object of a finished run stays until its commit: no other worker runs
a job of the document. -/
theorem puts_stored (h : Puts s) (hs : Sound s) (hb : Book s.world.db s.world.history)
    (hh : Handing s) (hm : Move threshold s l s') {w : ℕ} {job : Uuid} {started : JobRow}
    (hp : producedOf (s'.workers w) = some (job,started)) :
    ∃ c, .put job started.attempts c ∈ s'.world.history ∧
      s'.world.objects (artifactKey started.accountId started.documentId) = some c := by
  rcases produced_step hm hp with hp | ⟨o,out,m,row,document,markdown,rfl,htook,hw⟩
  · obtain ⟨c,hput,hobj⟩ := h.stored w job started hp
    refine ⟨c,(move_grows hm).mem hput,?_⟩
    rw [artifact_kept hh hm (fun x hx hkey => ?_), hobj]
    obtain ⟨v,o,out,b,rfl,hv,-,-,hxkey⟩ := putBy_running hs hx
    obtain ⟨-,hdoc⟩ := artifactKey_injective (hxkey.symm.trans hkey)
    obtain rfl := running_unique hs hb (running_of_unput hv) (running_of_produced hp) hdoc
    obtain ⟨v',_,_,m,j,b',row,document,markdown,hl,-,hw,-⟩ := putBy_eq_some.mp hx
    obtain ⟨rfl,-,-⟩ := Label.call.inj hl
    rw [hw] at hp
    cases hp
  · have hx : putBy s (.call w o out) = some ⟨job,started.attempts,row.documentId,
        artifactKey row.accountId document.id,markdown.toUTF8⟩ :=
      putBy_eq_some.mpr ⟨w,o,out,m,job,started,row,document,markdown,rfl,htook,hw,rfl⟩
    obtain ⟨hobj,hlog,-⟩ := put_effect hm hx
    have hk := hs.informed.workers w
    rw [hw] at hk
    obtain ⟨rfl,hf⟩ := hk
    refine ⟨markdown.toUTF8,by rw [hlog]; exact List.mem_cons_self,?_⟩
    rw [hobj, hf.id]
    exact Function.update_self _ _ _

theorem Puts.step (h : Puts s) (hs : Sound s) (hb : Book s.world.db s.world.history)
    (hh : Handing s) (hm : Move threshold s l s') : Puts s' where
  once job n c c' hc hc' := by
    have hnew : ∀ x c, putBy s l = some x → .put x.job x.attempt c ∉ s.world.history := by
      intro x c hx hput
      obtain ⟨w,o,out,b,-,hu,hatt,-⟩ := putBy_running hs hx
      rw [← hatt] at hput
      exact h.fresh w x.job b hu c hput
    rcases put_step hm hc with hc | ⟨x,hx,rfl,rfl,rfl⟩ <;>
      rcases put_step hm hc' with hc' | ⟨y,hy,hjob,hatt,rfl⟩
    · exact h.once job n c c' hc hc'
    · rw [← hjob, ← hatt] at hc
      exact absurd hc (hnew y c hy)
    · exact absurd hc' (hnew x c' hx)
    · rw [Option.some.inj (hx.symm.trans hy)]
  bound job n c hc := by
    have hold : ∃ row, s.world.db.jobs.get job = some row ∧ n ≤ row.attempts := by
      rcases put_step hm hc with hc | ⟨x,hx,rfl,rfl,-⟩
      · exact h.bound job n c hc
      · obtain ⟨w,o,out,b,-,hu,hatt,-⟩ := putBy_running hs hx
        have hholds := hs.engaged.holds w
        rw [running_of_unput hu] at hholds
        exact ⟨b,hholds.2,hatt.ge⟩
    obtain ⟨row,hrow,hle⟩ := hold
    obtain ⟨row',hrow',rfl | hrep⟩ := step_evolve hs hm hrow
    · exact ⟨row',hrow',hle⟩
    · exact ⟨row',hrow',hle.trans hrep.attempts_le⟩
  fresh w job started hu c := puts_fresh h hs hm hu c
  stored w job started hp := puts_stored h hs hb hh hm hp

theorem puts_of_reachable (h : Reachable (step threshold) init s) : Puts s := by
  refine h.invariant ⟨?_,?_,?_,?_⟩ (fun s l s' hr hp hstep => ?_)
  · intro job n c c' hc
    cases hc
  · intro job n c hc
    cases hc
  · intro w job started hu
    cases hu
  · intro w job started hp
    cases hp
  · exact hp.step (sound_of_reachable hr) (book_of_reachable hr) (handing_of_reachable hr)
      (step_move hstep)

end Puts

/-- The attempt that completed a job is its last one. -/
theorem book_completed {db : Tables} {log : List Event} (h : Book db log) {p : Proc} {j : Uuid}
    {n : ℕ} (he : .moved p j .started .completed n ∈ log) :
    ∃ row, db.jobs.get j = some row ∧ row.status = .completed ∧ row.attempts = n := by
  refine book_moved (fun old new _ _ hst hn => ⟨hst,hn⟩) (fun old new hr hold => ?_) h he
  have hedge := hr.edge
  rw [hold.1] at hedge
  cases hedge

section Main
variable {threshold : ℕ} {s s' : State} {l : Label}

def Tracked (s : State) : Prop :=
  ∀ slot a, s.world.db.artifacts.get slot = some a → Traced s a

theorem artifact_row_key {log : List Event} {σ : World} (hb : Book σ.db log)
    {slot : Uuid × ArtifactType} {a : ArtifactRow} (ha : σ.db.artifacts.get slot = some a) :
    ∃ document, σ.db.documents.get slot.1 = some document ∧
      a.objectKey = artifactKey document.accountId slot.1 := by
  obtain ⟨d,type⟩ := slot
  cases type
  exact book_artifactKey hb ha

/-- A row that a step leaves alone stays traced if its object does. -/
theorem traced_kept (hputs : Puts s') (hm : Move threshold s l s') {a : ArtifactRow}
    (h : Traced s a) (hobj : s'.world.objects a.objectKey = s.world.objects a.objectKey) :
    Traced s' a := by
  obtain ⟨p,n,content,hdone,hput,hstored⟩ := h
  have hg := move_grows hm
  have hmem := hg.mem ((hput content).mpr rfl)
  refine ⟨p,n,content,hg.mem hdone,fun c => ⟨fun hc => ?_,fun hc => ?_⟩,hobj.trans hstored⟩
  · exact hputs.once a.jobId n c content hc hmem
  · rw [hc]
    exact hmem

theorem putBy_of_files {job : Uuid} {started : JobRow} {x : ArtifactRow}
    (hm : Move threshold s l s') (hf : Files s s' job started x) (y : Output) :
    putBy s l ≠ some y := by
  intro hy
  obtain ⟨w,hlog⟩ := hf.history
  rw [(put_effect hm hy).2.1] at hlog
  cases hlog

/-- The row that a completing commit files is traced to its own attempt. -/
theorem traced_filed (hputs : Puts s) (hputs' : Puts s') (hh : Handing s)
    (hm : Move threshold s l s') {job : Uuid} {started : JobRow} {x a : ArtifactRow} {w : ℕ}
    {m : Message} (hf : Files s s' job started x)
    (hw : s.workers w = .handling m (.commit (.processed job started)))
    (hjob : a.jobId = job) (hkey : a.objectKey = x.objectKey) : Traced s' a := by
  obtain ⟨c,hput,hobj⟩ := hputs.stored w job started (by rw [hw]; rfl)
  obtain ⟨v,hlog⟩ := hf.history
  have hmem := (move_grows hm).mem hput
  subst hjob
  refine ⟨.worker v,started.attempts,c,?_,fun c' => ⟨fun hc => ?_,fun hc => ?_⟩,?_⟩
  · rw [hlog]
    exact List.mem_cons_self
  · exact hputs'.once _ _ c' c hc hmem
  · rw [hc]
    exact hmem
  · rw [hkey, hf.produces.key, artifact_kept hh hm, hobj]
    intro y hy
    exact absurd hy (putBy_of_files hm hf y)

/-- A step that overwrites nothing leaves the objects of the rows alone. -/
theorem row_object_kept (hs : Sound s) (hb : Book s.world.db s.world.history) (hh : Handing s)
    (hm : Move threshold s l s') (hok : overwrites s l = false) {slot : Uuid × ArtifactType}
    {a : ArtifactRow} (ha : s.world.db.artifacts.get slot = some a) :
    s'.world.objects a.objectKey = s.world.objects a.objectKey := by
  obtain ⟨document,hdoc,hkey⟩ := artifact_row_key hb ha
  rw [hkey]
  by_cases hput : ∃ x, putBy s l = some x ∧ x.key = artifactKey document.accountId slot.1
  · obtain ⟨x,hx,hxkey⟩ := hput
    obtain ⟨w,o,out,b,-,-,-,hbdoc,hbkey⟩ := putBy_running hs hx
    have hslot : slot = (x.document,.markdown) := by
      obtain ⟨-,hd⟩ := artifactKey_injective (hbkey.symm.trans hxkey)
      obtain ⟨d,type⟩ := slot
      cases type
      rw [← hbdoc, hd]
    rw [overwrites, hx, Option.any_some, ← hslot, ha] at hok
    have hsame : s.world.objects x.key = some x.content := by simpa using hok
    rw [(put_effect hm hx).1, ← hxkey, Function.update_self, hsame]
  · exact artifact_kept hh hm (fun x hx hxkey => hput ⟨x,hx,hxkey⟩)

theorem tracked_step (hr : Reachable (step threshold) init s) (hr' : Reachable (step threshold) init s')
    (hm : Move threshold s l s') (h : Tracked s) (hok : overwrites s l = false) : Tracked s' := by
  have hs := sound_of_reachable hr
  have hb := book_of_reachable hr
  have hh := handing_of_reachable hr
  have hputs' := puts_of_reachable hr'
  intro slot a ha
  rcases artifacts_step hs hm with he | ⟨job,started,x,hf,w,m,hw⟩
  · rw [he] at ha
    exact traced_kept hputs' hm (h slot a ha) (row_object_kept hs hb hh hm hok ha)
  · rw [hf.artifacts, Table.get_upsert (fun y => slot_refresh x y)] at ha
    split at ha
    · obtain rfl := Option.some.inj ha
      refine traced_filed (puts_of_reachable hr) hputs' hh hm hf hw ?_ (upserted_objectKey _ x)
      rw [← hf.produces.job]
      cases s.world.db.artifacts.get slot <;> rfl
    · exact traced_kept hputs' hm (h slot a ha) (row_object_kept hs hb hh hm hok ha)

/-- A put of other bytes breaks the law at once. -/
theorem tracked_broken (hr : Reachable (step threshold) init s) (hm : Move threshold s l s')
    (h : Tracked s) (hbad : overwrites s l = true) : ¬ Tracked s' := by
  intro h'
  have hs := sound_of_reachable hr
  have hb := book_of_reachable hr
  obtain ⟨x,hx,htest⟩ : ∃ x, putBy s l = some x ∧
      ((s.world.db.artifacts.get (x.document,.markdown)).isSome &&
        decide (s.world.objects x.key ≠ some x.content)) = true := by
    simpa [overwrites, Option.any_eq_true] using hbad
  obtain ⟨hsome,hne⟩ := Bool.and_eq_true_iff.mp htest
  obtain ⟨a,ha⟩ := Option.isSome_iff_exists.mp hsome
  obtain ⟨hobj,hlog,hdb⟩ := put_effect hm hx
  obtain ⟨w,o,out,b,-,hu,hatt,hbdoc,hbkey⟩ := putBy_running hs hx
  have hholds := hs.engaged.holds w
  rw [running_of_unput hu] at hholds
  obtain ⟨⟨row,hcopy⟩,hcur⟩ := hholds
  -- the key of the row is the one that has been written
  have hkey : a.objectKey = x.key := by
    obtain ⟨document,hdoc,hakey⟩ := artifact_row_key hb ha
    obtain ⟨d,hd,hacc⟩ := book_owner hb hcur
    rw [hbdoc] at hd
    obtain rfl := Option.some.inj (hdoc.symm.trans hd)
    rw [hakey, hbkey, hbdoc, hacc]
  obtain ⟨p,n,content,hdone,hput,hstored⟩ := h _ a ha
  obtain ⟨p',n',content',hdone',hput',hstored'⟩ := h' _ a (by rw [hdb]; exact ha)
  have hdone'' : .moved p' a.jobId .started .completed n' ∈ s.world.history := by
    rw [hlog] at hdone'
    simpa using hdone'
  obtain ⟨rowa,hrowa,hsta,hna⟩ := book_completed hb hdone
  obtain ⟨rowa',hrowa',-,hna'⟩ := book_completed hb hdone''
  obtain rfl := Option.some.inj (hrowa.symm.trans hrowa')
  obtain rfl : n = n' := hna.symm.trans hna'
  have hcontent : content' = x.content := by
    rw [hobj, hkey, Function.update_self] at hstored'
    exact (Option.some.inj hstored').symm
  have hmem := (hput' content').mpr rfl
  rw [hlog, hcontent] at hmem
  rcases List.mem_cons.mp hmem with heq | hmem
  · -- the writing job is started, the job of the row is completed
    obtain ⟨hjob,-,-⟩ := Event.put.inj heq
    rw [hjob] at hrowa
    obtain rfl := Option.some.inj (hrowa.symm.trans hcur)
    rw [hcopy.status] at hsta
    cases hsta
  · have hc := (hput x.content).mp hmem
    rw [hkey, ← hc] at hstored
    simp [hstored] at hne

/-- Every artifact row names the run that produced the stored object, in all
states of a run, exactly when no run of `process` puts other bytes for a
document that already has a row. -/
theorem artifact_provenance_iff {t : List (State × Label)}
    (ht : Trail (step threshold) init t s) :
    (∀ x ∈ Visited t s, Tracked x) ↔ Allowed (fun s l => overwrites s l = false) t := by
  refine Trail.always_iff (I := Reachable (step threshold) init) (fun _ h => h) ?_ ?_ ?_ ht
  · intro slot a ha
    cases ha
  · intro s l s' hr hr' h hok hstep
    exact tracked_step hr hr' (step_move hstep) h hok
  · intro s l s' hr _ h hbad hstep
    exact tracked_broken hr (step_move hstep) h (by simpa using hbad)

end Main

def recreateRun : List Label :=
  .call 0 {} .ok::.loop 0::.upload 7 (rawKey 7 1) ⟨#[1]⟩::
    .arrive 2 7 (.processDocument 1 [.markdown])::.serve 2 {} .ok::.serve 2 {} .ok::
    .serve 2 {} .ok::.serve 2 { uuid := 4, maxAttempts := 1 } .ok::
    List.replicate 2 (.serve 2 {} .ok)

def reputRun (text : String) : List Label :=
  .deliver 0 0::.begin 0::List.replicate 9 (.call 0 {} .ok)++
    [.call 0 { text := text } .ok,.call 0 {} .ok]

def reprocessRun (text : String) : List Label := completeRun++(recreateRun++reputRun text)

def staleRun : List Label :=
  reprocessRun "new"++.call 0 {} (.raises .mapped)::List.replicate 6 (.call 0 {} .ok)++[.loop 0]

theorem stale_artifact_row : Reachable (step 100) init (after staleRun) ∧
    (∃ a, (after staleRun).world.db.artifacts.get (1,.markdown) = some a ∧ a.jobId = 2 ∧
      ¬ Traced (after staleRun) a) ∧
    (∃ row, (after staleRun).world.db.jobs.get 4 = some row ∧ row.status = .failed) := by
  have hr : Reachable (step 100) init (after staleRun) :=
    reachable_of_run staleRun (by decide +kernel)
  have hrow : ((after staleRun).world.db.artifacts.get (1,.markdown)).any (fun a =>
      a.jobId = 2 && (after staleRun).world.objects a.objectKey = some "new".toUTF8) = true := by
    decide +kernel
  have hjob : ((after staleRun).world.db.jobs.get 4).any (fun row => row.status = .failed) =
      true := by decide +kernel
  have hlog : (after staleRun).world.history.all (fun
      | .put job _ content => !(job = 2 && content = "new".toUTF8)
      | _ => true) = true := by decide +kernel
  obtain ⟨a,ha,htest⟩ := (Option.any_eq_true _ _).mp hrow
  obtain ⟨row,hget,hst⟩ := (Option.any_eq_true _ _).mp hjob
  simp only [Bool.and_eq_true, decide_eq_true_eq] at htest
  refine ⟨hr,⟨a,ha,htest.1,?_⟩,row,hget,by simpa using hst⟩
  rintro ⟨p,n,content,-,hput,hstored⟩
  obtain rfl := Option.some.inj (htest.2.symm.trans hstored)
  have hmem := (hput "new".toUTF8).mpr rfl
  rw [htest.1] at hmem
  simpa using List.all_eq_true.mp hlog _ hmem

theorem artifact_provenance_iff_sample :
    (∀ x ∈ Visited (path (step 100) init (reprocessRun "")) (after (reprocessRun "")), Tracked x) ∧
      ∃ a, (after (reprocessRun "")).world.db.artifacts.get (1,.markdown) = some a ∧
        Traced (after (reprocessRun "")) a := by
  have ht : Trail (step 100) init (path (step 100) init (reprocessRun "")) (after (reprocessRun "")) :=
    trail_path (reprocessRun "") (by decide +kernel)
  have hok : ∀ x ∈ path (step 100) init (reprocessRun ""), overwrites x.1 x.2 = false := by
    decide +kernel
  have hall := (artifact_provenance_iff ht).mpr hok
  have hsome : ((after (reprocessRun "")).world.db.artifacts.get (1,.markdown)).isSome = true := by
    decide +kernel
  obtain ⟨a,ha⟩ := Option.isSome_iff_exists.mp hsome
  exact ⟨hall,a,ha,hall _ List.mem_cons_self _ a ha⟩

end DocPipeline.Provenance
