import DocPipeline.Bookkeeping

/-!
# One worker per document

A worker holds a claim from the commit of its QUEUED to STARTED update until
a commit moves the job on, or until it dies. The log makes claims of one job
exclusive, the index claims of one document. A worker that runs `process`
holds the claim of its job, so no two of them write the same artifact.
-/

set_option autoImplicit false

namespace DocPipeline.Exclusion
open DocPipeline.Identifiers DocPipeline.Records DocPipeline.Database DocPipeline.Calls
open DocPipeline.Consumer DocPipeline.System DocPipeline.Moves DocPipeline.Effects
open DocPipeline.Transactions DocPipeline.Pending DocPipeline.Reservations DocPipeline.Stances
open DocPipeline.Engagement DocPipeline.Knowledge DocPipeline.Ledger DocPipeline.Bookkeeping
open LabelledRuns TransitionLog EffectProgram

def claimEvent (w : ℕ) (job : Uuid) (n : ℕ) : Event := .moved (.worker w) job .queued .started n

def HoldsClaim (s : State) (w : ℕ) (job : Uuid) : Prop :=
  s.workers w ≠ .dead ∧ ∃ n, Unreleased reading (claimEvent w job n) s.world.history

def artifactTarget : Phase → Option String
  | .processJob _ started => some (artifactKey started.accountId started.documentId)
  | .processDocument _ _ row => some (artifactKey row.accountId row.documentId)
  | .processFetch _ _ row document => some (artifactKey row.accountId document.id)
  | .processParse _ _ row document _ => some (artifactKey row.accountId document.id)
  | .processPut _ _ row document _ => some (artifactKey row.accountId document.id)
  | .processArtifact _ _ row document _ => some (artifactKey row.accountId document.id)
  | .processComplete _ _ row document _ => some (artifactKey row.accountId document.id)
  | _ => none

def targetOf : Worker → Option String
  | .handling _ p => artifactTarget p
  | _ => none

section Holders
variable {threshold : ℕ} {s s' : State} {l : Label}

theorem reading_claim (w : ℕ) (job : Uuid) (n : ℕ) :
    reading (claimEvent w job n) = some ⟨job,some .queued,.started⟩ := rfl

theorem HoldsClaim.started (hb : Book s.world.db s.world.history) {w : ℕ} {job : Uuid}
    (h : HoldsClaim s w job) : ∃ row, s.world.db.jobs.get job = some row ∧
      row.status = .started := by
  obtain ⟨-,n,hu⟩ := h
  have ha := book_agrees hb
  have hc := (hu.latest ha.lawful (reading_claim w job n)).2
  rw [ha.current] at hc
  exact Option.map_eq_some_iff.mp hc

theorem HoldsClaim.worker_eq (hb : Book s.world.db s.world.history) {v w : ℕ} {job : Uuid}
    (hv : HoldsClaim s v job) (hw : HoldsClaim s w job) : v = w := by
  obtain ⟨-,n,hu⟩ := hv
  obtain ⟨-,n',hu'⟩ := hw
  have he := hu.unique hu' (book_agrees hb).lawful (reading_claim v job n)
    (reading_claim w job n') rfl
  simp only [claimEvent, Event.moved.injEq, Proc.worker.injEq] at he
  exact he.1

/-- Two started jobs of one document are one job. -/
theorem started_unique (hb : Book s.world.db s.world.history) {i j : Uuid} {a b : JobRow}
    (ha : s.world.db.jobs.get i = some a) (hj : s.world.db.jobs.get j = some b)
    (hsa : a.status = .started) (hsb : b.status = .started)
    (hdoc : a.documentId = b.documentId) : i = j := by
  obtain ⟨d,hd,hda⟩ := book_owner hb ha
  obtain ⟨d',hd',hdb⟩ := book_owner hb hj
  rw [hdoc] at hd
  obtain rfl := Option.some.inj (hd.symm.trans hd')
  exact book_unique hb ha hj (by rw [hsa]; rfl) (by rw [hsb]; rfl) (hda.symm.trans hdb) hdoc

/-- The committed copy of a worker stays committed only while no event moves
its job on. -/
theorem current_before (hs : Sound s) (hm : Move threshold s l s') {w : ℕ} {job : Uuid}
    {started : JobRow} (hc : (stanceOf (s.workers w)).claim = some (job,started))
    (hcur : Current s'.world.db job started) :
    Current s.world.db job started ∧ ∃ es, s'.world.history = es ++ s.world.history ∧
      ∀ a ∈ es, ∀ z, reading a = some z → z.key = job → z.before ≠ some .started := by
  obtain ⟨row,hcopy⟩ := (hs.engaged.holds w).copy hc
  rcases step_ledger hs hm with ⟨hdb,es,hh,hes⟩ | ⟨es,hp,hh⟩
  · rw [hdb] at hcur
    refine ⟨hcur,es,hh,fun a ha z hz => ?_⟩
    rw [hes a ha] at hz
    cases hz
  · unfold Current at hcur
    rcases posting_jobs hp with ⟨hjobs,rfl⟩ | ⟨x,ho⟩ | ⟨v,old,new,hsh⟩
    · rw [hjobs] at hcur
      exact ⟨hcur,[],hh,by simp⟩
    · rw [ho.jobs] at hcur
      split at hcur
      · rename_i hid
        have hstored := hcopy.stored
        rw [← hid, ho.fresh] at hstored
        cases hstored
      · refine ⟨hcur,es,hh,fun a ha z hz _ => ?_⟩
        rw [ho.log] at ha
        obtain rfl := List.mem_singleton.mp ha
        obtain rfl := Option.some.inj hz
        simp
    · rw [hsh.jobs] at hcur
      split at hcur
      · rename_i hid
        obtain rfl := Option.some.inj hcur
        rw [← hid] at hcopy
        obtain rfl := Option.some.inj (hsh.row.symm.trans hcopy.stored)
        have hn := hsh.replaces.attempts
        have := hcopy.attempts
        simp only [hcopy.status, if_true] at hn
        omega
      · rename_i hid
        refine ⟨hcur,es,hh,fun a ha z hz hk => ?_⟩
        rw [hsh.log] at ha
        obtain rfl := List.mem_singleton.mp ha
        obtain rfl := Option.some.inj hz
        exact absurd hk hid

def Recorded (s : State) : Prop :=
  ∀ w job started, (stanceOf (s.workers w)).claim = some (job,started) →
    Current s.world.db job started →
    Unreleased reading (claimEvent w job started.attempts) s.world.history

theorem claiming_event {w : ℕ} {job : Uuid} {started : JobRow} (ho : Opened s)
    (hc : Claiming s l s' w job started) :
    s'.world.history = claimEvent w job started.attempts::s.world.history := by
  obtain ⟨m,hw⟩ := hc.before
  have hop := ho.workers w
  rw [hw] at hop
  obtain ⟨old,hws,now,again,rfl,hst,rfl⟩ := hop
  rw [hc.history, (commit_update hws).2]
  simp [claimEvent, hst]

theorem Recorded.step (h : Recorded s) (hs : Sound s) (hm : Move threshold s l s') :
    Recorded s' := by
  intro w job started hc hcur
  rcases claim_step hm hc with hc | hnew
  · obtain ⟨hcur,es,hh,hes⟩ := current_before hs hm hc hcur
    rw [hh]
    exact (h w job started hc hcur).append (reading_claim _ _ _) hes
  · rw [claiming_event hs.opened hnew]
    exact Unreleased.head _ _

theorem recorded_of_reachable (h : Reachable (step threshold) init s) : Recorded s := by
  have h₀ : Recorded init := fun w job started hc => by cases hc
  exact h.invariant h₀ (fun s l s' hr hs hstep => hs.step (sound_of_reachable hr) (step_move hstep))

/-- A worker in `process` runs a claimed job and writes that job's key. -/
theorem target_running (hi : Informed s) {w : ℕ} {key : String}
    (h : targetOf (s.workers w) = some key) :
    ∃ job started, stanceOf (s.workers w) = .running job started ∧
      key = artifactKey started.accountId started.documentId := by
  have hk := hi.workers w
  cases hx : s.workers w with
  | handling m p =>
    rw [hx] at h hk
    cases p with
    | processJob job started => exact ⟨job,started,rfl,(Option.some.inj h).symm⟩
    | processDocument job started row =>
      obtain rfl : row = started := hk
      exact ⟨job,row,rfl,(Option.some.inj h).symm⟩
    | processFetch job started row document =>
      obtain ⟨rfl,hf⟩ := hk
      exact ⟨job,row,rfl,by rw [← hf.id]; exact (Option.some.inj h).symm⟩
    | processParse job started row document content =>
      obtain ⟨rfl,hf⟩ := hk
      exact ⟨job,row,rfl,by rw [← hf.id]; exact (Option.some.inj h).symm⟩
    | processPut job started row document markdown =>
      obtain ⟨rfl,hf⟩ := hk
      exact ⟨job,row,rfl,by rw [← hf.id]; exact (Option.some.inj h).symm⟩
    | processArtifact job started row document markdown =>
      obtain ⟨rfl,hf,-⟩ := hk
      exact ⟨job,row,rfl,by rw [← hf.id]; exact (Option.some.inj h).symm⟩
    | processComplete job started row document markdown =>
      obtain ⟨⟨rfl,hf⟩,-⟩ := hk
      exact ⟨job,row,rfl,by rw [← hf.id]; exact (Option.some.inj h).symm⟩
    | _ => cases h
  | _ =>
    rw [hx] at h
    cases h

/-- In every reachable state a document has at most one claimed job and at
most one worker that holds it, and the workers inside `process` hold the
claims of their jobs and write different keys. -/
theorem one_claim_per_document (h : Reachable (step threshold) init s) :
    (∀ v w i j a b, HoldsClaim s v i → HoldsClaim s w j → s.world.db.jobs.get i = some a →
      s.world.db.jobs.get j = some b → a.documentId = b.documentId → v = w ∧ i = j) ∧
    (∀ w job, HoldsClaim s w job → ∃ row, s.world.db.jobs.get job = some row) ∧
    (∀ w key, targetOf (s.workers w) = some key →
      ∃ job row, HoldsClaim s w job ∧ s.world.db.jobs.get job = some row ∧
        key = artifactKey row.accountId row.documentId) ∧
    (∀ v w key, targetOf (s.workers v) = some key → targetOf (s.workers w) = some key → v = w) := by
  have hb := book_of_reachable h
  have hs := sound_of_reachable h
  have hone : ∀ v w i j a b, HoldsClaim s v i → HoldsClaim s w j →
      s.world.db.jobs.get i = some a → s.world.db.jobs.get j = some b →
      a.documentId = b.documentId → v = w ∧ i = j := by
    intro v w i j a b hv hw ha hj hdoc
    obtain ⟨a',ha',hsa⟩ := hv.started hb
    obtain ⟨b',hb',hsb⟩ := hw.started hb
    obtain rfl := Option.some.inj (ha.symm.trans ha')
    obtain rfl := Option.some.inj (hj.symm.trans hb')
    obtain rfl := started_unique hb ha hj hsa hsb hdoc
    exact ⟨hv.worker_eq hb hw,rfl⟩
  have hholder : ∀ w key, targetOf (s.workers w) = some key →
      ∃ job row, HoldsClaim s w job ∧ s.world.db.jobs.get job = some row ∧
        key = artifactKey row.accountId row.documentId := by
    intro w key hk
    obtain ⟨job,started,hx,hkey⟩ := target_running hs.informed hk
    have hholds := hs.engaged.holds w
    rw [hx] at hholds
    have hrec := recorded_of_reachable h w job started (by rw [hx]; rfl) hholds.2
    refine ⟨job,started,⟨fun hd => ?_,_,hrec⟩,hholds.2,hkey⟩
    rw [hd] at hk
    cases hk
  refine ⟨hone,fun w job hw => ?_,hholder,fun v w key hv hw => ?_⟩
  · obtain ⟨row,hrow,-⟩ := hw.started hb
    exact ⟨row,hrow⟩
  · obtain ⟨i,a,hi,ha,hka⟩ := hholder v key hv
    obtain ⟨j,b,hj,hjb,hkb⟩ := hholder w key hw
    have hdoc := (artifactKey_injective (hka.symm.trans hkb)).2
    exact (hone v w i j a b hi hj ha hjb hdoc).1

end Holders

def uploadRun : List Label :=
  .arrive 0 7 .createDocument::.serve 0 { uuid := 1 } .ok::
    List.replicate 5 (.serve 0 {} .ok)++[.receive 0,.upload 7 (rawKey 7 1) ByteArray.empty]

def publishRun : List Label :=
  uploadRun++.arrive 1 7 (.processDocument 1 [.markdown])::List.replicate 3 (.serve 1 {} .ok)++
    .serve 1 { uuid := 2 } .ok::List.replicate 2 (.serve 1 {} .ok)

def claimRun : List Label :=
  publishRun++[.deliver 0 0,.begin 0]++List.replicate 6 (.call 0 {} .ok)

def after (ls : List Label) : State := (run (step 100) init ls).getD init

def below (n : ℕ) (l : Label) : Bool :=
  (workerAt l).all (· < n) && (requestAt l).all (· < n)

theorem untouched_after {ls : List Label} {n : ℕ} (hrun : (run (step 100) init ls).isSome = true)
    (hl : ls.all (below n) = true) {k : ℕ} (hk : n ≤ k) :
    (after ls).workers k = .idle ∧ (after ls).world.unsettled k = none ∧
      (after ls).requests k = none := by
  obtain ⟨s,hs⟩ := Option.isSome_iff_exists.mp hrun
  obtain ⟨t,ht,hlabels⟩ := trail_of_run ls hs
  have hafter : after ls = s := by rw [after, hs]; rfl
  have hbelow : Allowed (fun _ l => below n l = true) t :=
    allowed_of_labels hlabels (fun _ => List.all_eq_true.mp hl)
  have hne : ∀ x ∈ t, workerAt x.2 ≠ some k ∧ requestAt x.2 ≠ some k := by
    intro x hx
    have h := hbelow x hx
    simp only [below, Bool.and_eq_true] at h
    refine ⟨fun he => ?_,fun he => ?_⟩ <;> simp only [he, Option.all_some, decide_eq_true_eq] at h <;>
      omega
  rw [hafter]
  obtain ⟨hw,hu⟩ := untouched_worker ht (fun x hx => (hne x hx).1)
  exact ⟨hw,hu,untouched_request ht (fun x hx => (hne x hx).2)⟩

theorem one_claim_per_document_sample :
    targetOf ((after claimRun).workers 0) = some (artifactKey 7 1) ∧
      ∃ job row, HoldsClaim (after claimRun) 0 job ∧
        (after claimRun).world.db.jobs.get job = some row ∧
        artifactKey 7 1 = artifactKey row.accountId row.documentId := by
  have hr : Reachable (step 100) init (after claimRun) :=
    reachable_of_run claimRun (by decide +kernel)
  have ht : targetOf ((after claimRun).workers 0) = some (artifactKey 7 1) := by decide +kernel
  exact ⟨ht,(one_claim_per_document hr).2.2.1 0 _ ht⟩

end DocPipeline.Exclusion
