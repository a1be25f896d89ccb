import DocPipeline.Tenants
import DocPipeline.Progress

/-!
# What a client learns from one response to the next

A client sees the rows of its jobs through responses that travel while the
pipeline moves on. Every change of a job row gives it a higher version, and a
request reads the row after it has arrived; so a request that is sent after a
response has been received is never answered with an older version.
-/

set_option autoImplicit false

namespace DocPipeline.Sessions
open DocPipeline.Identifiers DocPipeline.Records DocPipeline.Database DocPipeline.Calls
open DocPipeline.Consumer DocPipeline.Routes DocPipeline.System DocPipeline.Moves
open DocPipeline.Effects DocPipeline.Answers DocPipeline.Transactions DocPipeline.Pending
open DocPipeline.Knowledge DocPipeline.Ledger DocPipeline.Bookkeeping DocPipeline.Exclusion
open DocPipeline.Publication DocPipeline.Artifacts DocPipeline.ReadYourWrites DocPipeline.Tenants
open LabelledRuns EffectProgram KeyedTable

def jobOf : Response → Option JobResponse
  | .jobCreated job => some job
  | .job job => some job
  | _ => none

/-- Every change of a job row raises this number. -/
def version (status : JobStatus) (attempts : ℕ) : ℕ :=
  2*attempts+if status = .started then 0 else 1

def Changes (old new : JobRow) : Prop :=
  ∃ status err now again, edge old.status status = true ∧ new = updated status err now again old

structure Precedes (x y : JobResponse) : Prop where
  id : y.id = x.id
  document : y.documentId = x.documentId
  types : y.artifactTypes = x.artifactTypes
  budget : y.maxAttempts = x.maxAttempts
  created : y.createdAt = x.createdAt
  attempts : x.attempts ≤ y.attempts
  version : version x.status x.attempts ≤ version y.status y.attempts
  same : Sessions.version y.status y.attempts = Sessions.version x.status x.attempts → y = x
  final : x.status.active = false → y = x

def Past (σ : World) (x : JobResponse) : Prop :=
  ∃ row, σ.db.jobs.get x.id = some row ∧ Precedes x (toResponse row)

def Since (σ : World) (y : JobResponse) : Prop :=
  ∀ row, σ.db.jobs.get y.id = some row → Precedes (toResponse row) y

section Versions
variable {db db' : Tables} {log es : List Event} {σ : World} {x y z : JobResponse}

theorem Precedes.refl (x : JobResponse) : Precedes x x where
  id := rfl
  document := rfl
  types := rfl
  budget := rfl
  created := rfl
  attempts := le_refl _
  version := le_refl _
  same _ := rfl
  final _ := rfl

theorem Precedes.trans (h : Precedes x y) (h' : Precedes y z) : Precedes x z where
  id := h'.id.trans h.id
  document := h'.document.trans h.document
  types := h'.types.trans h.types
  budget := h'.budget.trans h.budget
  created := h'.created.trans h.created
  attempts := h.attempts.trans h'.attempts
  version := h.version.trans h'.version
  same he := by
    have h₁ := h.version
    have h₂ := h'.version
    obtain rfl := h'.same (by omega)
    exact h.same he
  final hx := by
    obtain rfl := h.final hx
    exact h'.final hx

theorem updated_artifactTypes (status : JobStatus) (err : Option String) (now again : Time)
    (old : JobRow) : (updated status err now again old).artifactTypes = old.artifactTypes := by
  cases status <;> cases err <;> rfl

theorem updated_createdAt (status : JobStatus) (err : Option String) (now again : Time)
    (old : JobRow) : (updated status err now again old).createdAt = old.createdAt := by
  cases status <;> cases err <;> rfl

/-- A change counts: the version goes up. -/
theorem version_changes {old new : JobRow} (h : Changes old new) :
    version old.status old.attempts < version new.status new.attempts := by
  obtain ⟨status,err,now,again,hedge,rfl⟩ := h
  rw [updated_status, updated_attempts]
  cases hold : old.status <;> cases status <;> rw [hold] at hedge <;>
    first | (cases hedge; done) | (simp [version]; done) | (simp [version]; omega)

theorem precedes_changes {old new : JobRow} (h : Changes old new) :
    Precedes (toResponse old) (toResponse new) := by
  have hlt := version_changes h
  obtain ⟨status,err,now,again,hedge,rfl⟩ := h
  refine ⟨updated_id _ _ _ _ _,updated_documentId _ _ _ _ _,updated_artifactTypes _ _ _ _ _,
    updated_maxAttempts _ _ _ _ _,updated_createdAt _ _ _ _ _,?_,hlt.le,?_,?_⟩
  · exact (replaces_updated err now again hedge).attempts_le
  · exact fun he => absurd he hlt.ne'
  · intro hx
    have hactive := active_of_edge hedge
    rw [show old.status.active = false from hx] at hactive
    cases hactive

/-- The one row an update changes, and the others. -/
theorem changes_put {old row : JobRow} {status : JobStatus} (err : Option String)
    (now again : Time) {j : Uuid} (hold : db.jobs.get old.id = some old)
    (hedge : edge old.status status = true) (hrow : db.jobs.get j = some row) :
    ∃ row', (db.jobs.put (updated status err now again old)).get j = some row' ∧
      (row' = row ∨ Changes row row') := by
  rw [get_put_row hold (updated_id _ _ _ _ _)]
  by_cases hj : old.id = j
  · subst hj
    obtain rfl := Option.some.inj (hold.symm.trans hrow)
    exact ⟨_,if_pos rfl,Or.inr ⟨status,err,now,again,hedge,rfl⟩⟩
  · exact ⟨row,(if_neg hj).trans hrow,Or.inl rfl⟩

theorem posting_changes (hp : Posting db log es db') {j : Uuid} {row : JobRow}
    (hrow : db.jobs.get j = some row) :
    ∃ row', db'.jobs.get j = some row' ∧ (row' = row ∨ Changes row row') := by
  cases hp with
  | document x => exact ⟨row,hrow,Or.inl rfl⟩
  | created x hfresh =>
    refine ⟨row,?_,Or.inl rfl⟩
    exact Table.get_insert_of_some hrow
  | claimed w old now again hold hst =>
    exact changes_put none now again hold (by rw [hst]; rfl) hrow
  | completed w old now again a hold hst =>
    exact changes_put none now again hold (by rw [hst]; rfl) hrow
  | requeued w old text now again hold hst =>
    exact changes_put (some text) now again hold (by rw [hst]; rfl) hrow
  | failed w old text now again hold hst =>
    exact changes_put (some text) now again hold (by rw [hst]; rfl) hrow

end Versions

section Steps
variable {threshold : ℕ} {s s' : State} {l : Label}

theorem step_changes (hs : Sound s) (hm : Move threshold s l s') {j : Uuid} {row : JobRow}
    (hrow : s.world.db.jobs.get j = some row) :
    ∃ row', s'.world.db.jobs.get j = some row' ∧ (row' = row ∨ Changes row row') := by
  rcases step_ledger hs hm with ⟨hdb,-⟩ | ⟨es,hp,-⟩
  · exact ⟨row,by rw [hdb]; exact hrow,Or.inl rfl⟩
  · exact posting_changes hp hrow

theorem step_precedes (hs : Sound s) (hm : Move threshold s l s') {j : Uuid} {row : JobRow}
    (hrow : s.world.db.jobs.get j = some row) :
    ∃ row', s'.world.db.jobs.get j = some row' ∧
      Precedes (toResponse row) (toResponse row') := by
  obtain ⟨row',hrow',rfl | hc⟩ := step_changes hs hm hrow
  · exact ⟨_,hrow',.refl _⟩
  · exact ⟨_,hrow',precedes_changes hc⟩

theorem Past.step {x : JobResponse} (h : Past s.world x) (hs : Sound s)
    (hm : Move threshold s l s') : Past s'.world x := by
  obtain ⟨row,hrow,hx⟩ := h
  obtain ⟨row',hrow',hp⟩ := step_precedes hs hm hrow
  exact ⟨row',hrow',hx.trans hp⟩

/-- In a run, a row that was there at the start is there, as old or newer. -/
theorem trail_precedes {t : List (State × Label)} (hr : Reachable (step threshold) init s)
    (ht : Trail (step threshold) s t s') {j : Uuid} {row : JobRow}
    (hrow : s.world.db.jobs.get j = some row) :
    ∃ row', s'.world.db.jobs.get j = some row' ∧
      Precedes (toResponse row) (toResponse row') := by
  induction ht with
  | start => exact ⟨row,hrow,.refl _⟩
  | @next t b b' l ht hstep ih =>
    obtain ⟨row₁,hrow₁,hp₁⟩ := ih
    obtain ⟨t₀,h₀⟩ := hr
    obtain ⟨row₂,hrow₂,hp₂⟩ := step_precedes (sound_of_reachable ⟨_,h₀.trans ht⟩) (step_move hstep)
      hrow₁
    exact ⟨row₂,hrow₂,hp₁.trans hp₂⟩

end Steps

def reports : Stage → Option JobResponse
  | .enqueueJob job => some (toResponse job)
  | .respond response => jobOf response
  | _ => none

structure Told (s : State) : Prop where
  requests : ∀ r q x, s.requests r = some q → reports q.stage = some x → Past s.world x
  wire : ∀ r y x, s.world.wire r = some y → jobOf y = some x →
    Past s.world x ∧ ∃ q, s.requests r = some q
  history : ∀ a y x, .received a y ∈ s.world.history → jobOf y = some x → Past s.world x

structure Recent (σ : World) (r : ℕ) (s : State) : Prop where
  request : ∀ q x, s.requests r = some q → reports q.stage = some x → Since σ x
  wire : ∀ y x, s.world.wire r = some y → jobOf y = some x → Since σ x

section Reports
variable {threshold : ℕ} {s s' : State} {l : Label}

theorem reports_start (a : AccountId) (route : Route) : reports (startStage a route) = none := by
  cases route <;> rfl

theorem reports_signing (rows : List ArtifactRow) (done : List (Uuid × ArtifactType × Url)) :
    reports (signing rows done) = none := by
  cases rows <;> rfl

theorem reports_leave (sent : Bool) (e : Option Exc) : reports (leaveRequest sent e) = none := by
  cases sent <;> cases e <;> rfl

/-- A request reports on the row it has just read or just committed. -/
theorem reports_serve {σ σ' : World} {q : ℕ} {x : Stage} {c : Call} {k : Except Exc c.Resp → Stage}
    {o : Oracle} {out : Outcome} {y : Except Exc c.Resp} {z : JobResponse}
    (hv : viewStage threshold x = .calls c k) (he : exec σ (.request q) o c out = some (y,σ'))
    (h : reports (k y) = some z) :
    reports x = some z ∨ (∃ row, σ.db.jobs.get z.id = some row ∧ z = toResponse row) ∧ σ' = σ ∨
      ∃ job, x = .commitJob job ∧ z = toResponse job ∧ σ' = σ.commit (.request q) := by
  cases x with
  | readJob a id =>
    cases hv
    rcases y with e | _ | row
    · cases h
    · cases h
    · obtain ⟨-,hs⟩ := exec_ok he
      obtain ⟨hget,rfl⟩ : σ.db.getJob id a = some row ∧ σ = σ' := by simpa [serve] using hs
      obtain rfl := Option.some.inj h
      obtain ⟨hrow,-⟩ := getJob_eq_some.mp hget
      have hid : row.id = id := Table.key_of_get hrow
      subst hid
      exact Or.inr (Or.inl ⟨⟨row,hrow,rfl⟩,rfl⟩)
  | commitJob job =>
    cases hv
    rcases y with e | u
    · cases h
    · obtain ⟨-,hs⟩ := exec_ok he
      cases hs
      exact Or.inr (Or.inr ⟨job,rfl,(Option.some.inj h).symm,rfl⟩)
  | enqueueJob job =>
    cases hv
    cases y with
    | error e => cases h
    | ok u => exact Or.inl h
  | checkObject dto document =>
    cases hv
    rcases y with e | _ | _ <;> cases h
  | checkDepth dto document =>
    cases hv
    rcases y with e | depth
    · cases h
    · dsimp only at h
      split at h <;> cases h
  | listRows a i =>
    cases hv
    rcases y with e | rows
    · cases h
    · rw [reports_signing] at h
      cases h
  | signDownloads artifact rest done =>
    cases hv
    rcases y with e | url
    · cases h
    · rw [reports_signing] at h
      cases h
  | close sent e =>
    cases hv
    cases y <;> rw [reports_leave] at h <;> cases h
  | findDocument dto =>
    cases hv
    rcases y with e | _ | _ <;> cases h
  | readDocument a i =>
    cases hv
    rcases y with e | _ | _ <;> cases h
  | listDocument a i =>
    cases hv
    rcases y with e | _ | _ <;> cases h
  | finished => cases hv
  | crashed e => cases hv
  | _ =>
    cases hv
    cases y <;> cases h

/-- What is reported after a step was reported before it, or its job has just
been read or committed. -/
theorem reports_step (hs : Sound s) (hm : Move threshold s l s') {r : ℕ} {q : Request}
    {x : JobResponse} (hq : s'.requests r = some q) (hx : reports q.stage = some x) :
    (∃ q', s.requests r = some q' ∧ reports q'.stage = some x) ∨
      ∃ row, s'.world.db.jobs.get x.id = some row ∧ x = toResponse row ∧
        (s.world.db.jobs.get x.id = some row ∨ s.world.db.jobs.get x.id = none) := by
  by_cases hat : requestAt l = some r
  · cases hm with
    | arrive account route hr =>
      obtain rfl := Option.some.inj hat
      obtain rfl := Option.some.inj ((setStage_self _ _ _ _).symm.trans hq)
      rw [reports_start] at hx
      cases hx
    | @serve v z c k o out y σ hz hv he =>
      obtain rfl := Option.some.inj hat
      obtain rfl := Option.some.inj ((setStage_self _ _ _ _).symm.trans hq)
      rcases reports_serve hv he hx with hx | ⟨⟨row,hrow,rfl⟩,rfl⟩ | ⟨job,hstage,rfl,rfl⟩
      · exact Or.inl ⟨z,hz,hx⟩
      · exact Or.inr ⟨row,hrow,rfl,Or.inl hrow⟩
      · obtain ⟨a,stage⟩ := z
        obtain rfl : stage = _ := hstage
        have hop := hs.opened.requests v
        rw [hz] at hop
        obtain ⟨hws,-,-⟩ := hop
        have hiso := hs.guarded.fenced.isolated
        obtain ⟨hnone,-⟩ := hiso.ready (.request v) (.insertJob job) (by rw [hws]; simp)
        exact Or.inr ⟨job,jobs_inserted (hiso.own _) (hiso.ready _) (by rw [hws]; simp),rfl,
          Or.inr hnone⟩
    | abort hz =>
      obtain rfl := Option.some.inj hat
      obtain rfl := Option.some.inj ((setStage_self _ _ _ _).symm.trans hq)
      cases hx
    | _ => cases hat
  · rw [frame_request hm hat] at hq
    exact Or.inl ⟨q,hq,hx⟩

theorem Told.step (h : Told s) (hs : Sound s) (hm : Move threshold s l s') : Told s' where
  requests r q x hq hx := by
    rcases reports_step hs hm hq hx with ⟨q',hq',hx'⟩ | ⟨row,hrow,rfl,-⟩
    · exact (h.requests r q' x hq' hx').step hs hm
    · exact ⟨row,hrow,.refl _⟩
  wire r y x hw hx := by
    rcases wire_step hm hw with hw | ⟨e,rfl,-⟩ | ⟨a,o,out,rfl,hq,hq'⟩
    · obtain ⟨hp,q,hq⟩ := h.wire r y x hw hx
      obtain ⟨q',hq',-⟩ := account_step hm hq
      exact ⟨hp.step hs hm,q',hq'⟩
    · cases hx
    · exact ⟨(h.requests r _ x hq hx).step hs hm,_,hq'⟩
  history a y x hrec hx := by
    rcases received_step hm hrec with hrec | ⟨r,q,rfl,hq,rfl,hw⟩
    · exact (h.history a y x hrec hx).step hs hm
    · exact (h.wire r y x hw hx).1.step hs hm

theorem told_of_reachable (h : Reachable (step threshold) init s) : Told s := by
  refine h.invariant ⟨?_,?_,?_⟩ (fun s l s' hr ht hstep => ?_)
  · intro r q x hq
    cases hq
  · intro r y x hw
    cases hw
  · intro a y x hrec
    cases hrec
  · exact ht.step (sound_of_reachable hr) (step_move hstep)

theorem Recent.step {σ : World} {r : ℕ} (h : Recent σ r s) (hs : Sound s)
    (hm : Move threshold s l s')
    (hrows : ∀ j row, σ.db.jobs.get j = some row → ∃ row', s.world.db.jobs.get j = some row' ∧
      Precedes (toResponse row) (toResponse row')) : Recent σ r s' where
  request q x hq hx := by
    rcases reports_step hs hm hq hx with ⟨q',hq',hx'⟩ | ⟨row,-,rfl,hrow⟩
    · exact h.request q' x hq' hx'
    · intro row₁ hrow₁
      obtain ⟨row₂,hrow₂,hp⟩ := hrows _ _ hrow₁
      rcases hrow with hrow | hrow <;> rw [hrow] at hrow₂ <;> cases hrow₂
      exact hp
  wire y x hw hx := by
    rcases wire_step hm hw with hw | ⟨e,rfl,-⟩ | ⟨a,o,out,rfl,hq,-⟩
    · exact h.wire y x hw hx
    · cases hx
    · exact h.request _ x hq hx

theorem recent_of_trail {t : List (State × Label)} {r : ℕ} (hr : Reachable (step threshold) init s)
    (hnone : s.requests r = none) (ht : Trail (step threshold) s t s') : Recent s.world r s' := by
  induction ht with
  | start =>
    refine ⟨fun q x hq => ?_,fun y x hw hx => ?_⟩
    · rw [hnone] at hq
      cases hq
    · obtain ⟨-,q,hq⟩ := (told_of_reachable hr).wire r y x hw hx
      rw [hnone] at hq
      cases hq
  | @next t b b' l ht hstep ih =>
    obtain ⟨t₀,h₀⟩ := id hr
    exact ih.step (sound_of_reachable ⟨_,h₀.trans ht⟩) (step_move hstep)
      (fun j row hrow => trail_precedes hr ht hrow)

/-- Monotone reads. A request that has not arrived when a client receives a
response never answers with an older version of the same job. -/
theorem monotone_reads {t : List (State × Label)} {r : ℕ} {a : AccountId} {y₁ y₂ : Response}
    {x₁ x₂ : JobResponse} (hr : Reachable (step threshold) init s)
    (ht : Trail (step threshold) s t s') (hrec : .received a y₁ ∈ s.world.history)
    (hnone : s.requests r = none) (hw : s'.world.wire r = some y₂) (h₁ : jobOf y₁ = some x₁)
    (h₂ : jobOf y₂ = some x₂) (hid : x₁.id = x₂.id) : Precedes x₁ x₂ := by
  obtain ⟨row,hrow,hp⟩ := (told_of_reachable hr).history a y₁ x₁ hrec h₁
  rw [hid] at hrow
  exact hp.trans ((recent_of_trail hr hnone ht).wire y₂ x₂ hw h₂ row hrow)

def toldRun : List Label := Progress.finishRun++[.receive 1]

def askLabels : List Label := .arrive 2 7 (.getJob 2)::List.replicate 2 (.serve 2 {} .ok)

def sampled (status : JobStatus) (x : JobResponse) : Bool :=
  x.id = 2 && x.documentId = 1 && x.status = status

def hears (status : JobStatus) : Event → Bool
  | .received _ y => (jobOf y).any (sampled status)
  | _ => false

theorem sampled_of_says {status : JobStatus} {y : Response}
    (h : (jobOf y).any (sampled status) = true) :
    ∃ x, jobOf y = some x ∧ x.id = 2 ∧ x.documentId = 1 ∧ x.status = status := by
  simpa [sampled, Option.any_eq_true, and_assoc] using h

theorem sampled_of_hears {status : JobStatus} {log : List Event}
    (h : log.any (hears status) = true) : ∃ a y x, .received a y ∈ log ∧
      jobOf y = some x ∧ x.id = 2 ∧ x.documentId = 1 ∧ x.status = status := by
  obtain ⟨e,he,hh⟩ := List.any_eq_true.mp h
  cases e with
  | received a y =>
    obtain ⟨x,hx⟩ := sampled_of_says hh
    exact ⟨a,y,x,he,hx⟩
  | _ => cases hh

theorem monotone_reads_sample :
    ∃ x₁ x₂, x₁.status = .queued ∧ x₂.status = .completed ∧ Precedes x₁ x₂ := by
  have hrun : ((run (step 100) init (toldRun++askLabels)).isSome &&
      (after toldRun).world.history.any (hears .queued) &&
      ((after toldRun).requests 2).isNone &&
      ((after (toldRun++askLabels)).world.wire 2).any (fun y => (jobOf y).any (sampled .completed)))
        = true := by decide +kernel
  simp only [Bool.and_eq_true, Option.isNone_iff_eq_none] at hrun
  obtain ⟨⟨⟨hsome,hheard⟩,hnone⟩,hsaid⟩ := hrun
  obtain ⟨a,y₁,x₁,hrec,h₁,hid₁,-,hst₁⟩ := sampled_of_hears hheard
  obtain ⟨y₂,hw,hsaid⟩ := (Option.any_eq_true _ _).mp hsaid
  obtain ⟨x₂,h₂,hid₂,-,hst₂⟩ := sampled_of_says hsaid
  obtain ⟨hr,ht⟩ := trail_path_append hsome
  exact ⟨x₁,x₂,hst₁,hst₂,monotone_reads hr ht hrec hnone hw h₁ h₂ (hid₁.trans hid₂.symm)⟩

end Reports

/-- A request of account `b` whose answer can be no other list of artifacts of
document `d` than `items`. -/
def Lists (σ : World) (b : AccountId) (d : Uuid) (items : List (Uuid × ArtifactType × Url)) :
    Stage → Prop
  | .listDocument a i => a = b ∧ i = d
  | .listRows a i => a = b ∧ i = d ∧ Owned σ b d
  | .signDownloads artifact rest done => done++(artifact::rest).map listed = items
  | .respond (.artifacts found) => found = items
  | _ => True

/-- A request of account `b` for the artifacts of document `d` that is not on
its way to answer that there is no such document. -/
def Found (b : AccountId) (d : Uuid) : Stage → Prop
  | .listDocument a i => a = b ∧ i = d
  | .rollback _ e | .respondError e => e ≠ .documentNotFound
  | .close _ e => e ≠ some .documentNotFound
  | .respond y => y ≠ .error .documentNotFound
  | .listRows _ _ | .signDownloads _ _ _ | .commit _ | .finished | .crashed _ => True
  | _ => False

section Listing
variable {threshold : ℕ} {s s' : State} {l : Label} {σ σ' : World} {b : AccountId} {d : Uuid}
  {items : List (Uuid × ArtifactType × Url)}

theorem Lists.grow {x : Stage} (h : Lists σ b d items x) (hg : Grows σ σ') :
    Lists σ' b d items x := by
  cases x with
  | listRows a i => exact ⟨h.1,h.2.1,h.2.2.grow hg⟩
  | respond y => cases y <;> exact h
  | _ => exact h

theorem lists_signing {rows : List ArtifactRow} {done : List (Uuid × ArtifactType × Url)}
    (h : done++rows.map listed = items) : Lists σ b d items (signing rows done) := by
  cases rows with
  | nil => simpa [signing, Lists] using h
  | cons x rows => exact h

theorem lists_leave (sent : Bool) (e : Option Exc) : Lists σ b d items (leaveRequest sent e) := by
  cases sent <;> cases e <;> trivial

/-- The owner of a document lists the one artifact it has. -/
theorem listArtifacts_eq {row : ArtifactRow} (ha : σ.db.artifacts.get (d,.markdown) = some row)
    (ho : Owned σ b d) : σ.db.listArtifacts d b = [row] := by
  obtain ⟨document,hdoc,rfl⟩ := ho
  have hrow : row.documentId = d := congrArg Prod.fst (Table.key_of_get ha)
  have hmem : row ∈ σ.db.listArtifacts d document.accountId := by
    refine List.mem_filter.mpr ⟨Table.mem_of_get ha,?_⟩
    simp [hrow, hdoc]
  obtain ⟨x,hx⟩ := List.length_eq_one_iff.mp (le_antisymm
    (Work.listArtifacts_length σ.db d document.accountId) (List.length_pos_of_mem hmem))
  rw [hx] at hmem ⊢
  rw [List.mem_singleton.mp hmem]

theorem lists_serve {q : ℕ} {x : Stage} {c : Call} {k : Except Exc c.Resp → Stage} {o : Oracle}
    {out : Outcome} {y : Except Exc c.Resp} (h : Lists σ b d items x)
    (hitems : Owned σ b d → (σ.db.listArtifacts d b).map listed = items)
    (hv : viewStage threshold x = .calls c k) (he : exec σ (.request q) o c out = some (y,σ')) :
    Lists σ b d items (k y) := by
  cases x with
  | listDocument a i =>
    cases hv
    rcases y with e | _ | document
    · trivial
    · trivial
    · obtain ⟨rfl,rfl⟩ := h
      obtain ⟨-,hs⟩ := exec_ok he
      obtain ⟨hget,-⟩ : σ.db.getDocument i a = some document ∧ σ = σ' := by simpa [serve] using hs
      exact ⟨rfl,rfl,document,getDocument_eq_some.mp hget⟩
  | listRows a i =>
    cases hv
    rcases y with e | rows
    · trivial
    · obtain ⟨rfl,rfl,ho⟩ := h
      obtain ⟨-,hs⟩ := exec_ok he
      obtain ⟨rfl,-⟩ : _ = rows ∧ _ = σ' := by simpa [serve] using hs
      exact lists_signing (hitems ho)
  | signDownloads artifact rest done =>
    cases hv
    rcases y with e | url
    · trivial
    · obtain ⟨-,hs⟩ := exec_ok he
      obtain ⟨rfl,-⟩ : _ = url ∧ _ = σ' := by simpa [serve] using hs
      exact lists_signing (by rw [List.append_assoc]; exact h)
  | checkObject dto document =>
    cases hv
    rcases y with e | _ | _ <;> trivial
  | checkDepth dto document =>
    cases hv
    rcases y with e | depth
    · trivial
    · dsimp only
      split <;> trivial
  | findDocument dto =>
    cases hv
    rcases y with e | _ | _ <;> trivial
  | readDocument a i =>
    cases hv
    rcases y with e | _ | _ <;> trivial
  | readJob a i =>
    cases hv
    rcases y with e | _ | _ <;> trivial
  | close sent e =>
    cases hv
    cases y <;> exact lists_leave _ _
  | finished => cases hv
  | crashed e => cases hv
  | _ =>
    cases hv
    cases y <;> trivial

theorem found_leave {sent : Bool} {e : Option Exc} (h : e ≠ some .documentNotFound) :
    Found b d (leaveRequest sent e) := by
  cases e with
  | none => trivial
  | some e => cases sent <;> first | trivial | exact fun he => h (congrArg some he)

theorem found_signing (rows : List ArtifactRow) (done : List (Uuid × ArtifactType × Url)) :
    Found b d (signing rows done) := by
  cases rows <;> simp [signing, Found]

/-- The owner of the document finds it, and nothing else denies it. -/
theorem found_serve {q : ℕ} {x : Stage} {c : Call} {k : Except Exc c.Resp → Stage} {o : Oracle}
    {out : Outcome} {y : Except Exc c.Resp} (h : Found b d x) (ho : Owned σ b d)
    (hv : viewStage threshold x = .calls c k) (he : exec σ (.request q) o c out = some (y,σ')) :
    Found b d (k y) := by
  cases x with
  | listDocument a i =>
    cases hv
    obtain ⟨rfl,rfl⟩ := h
    rcases y with e | _ | document
    · exact error_ne_notFound he
    · obtain ⟨row,hrow⟩ := ho
      obtain ⟨-,hs⟩ := exec_ok he
      obtain ⟨hget,-⟩ : σ.db.getDocument i a = none ∧ σ = σ' := by simpa [serve] using hs
      rw [getDocument_eq_some.mpr hrow] at hget
      cases hget
    · trivial
  | listRows a i =>
    cases hv
    rcases y with e | rows
    · exact error_ne_notFound he
    · exact found_signing _ _
  | signDownloads artifact rest done =>
    cases hv
    rcases y with e | url
    · exact error_ne_notFound he
    · exact found_signing _ _
  | rollback sent e =>
    cases hv
    rcases y with e' | _
    · exact fun heq => error_ne_notFound he (Option.some.inj heq)
    · exact fun heq => h (Option.some.inj heq)
  | close sent e =>
    cases hv
    rcases y with e' | _
    · exact found_leave (fun heq => error_ne_notFound he (Option.some.inj heq))
    · exact found_leave h
  | respond response =>
    cases hv
    rcases y with e | _
    · exact error_ne_notFound he
    · trivial
  | commit response =>
    cases hv
    rcases y with e | _
    · exact error_ne_notFound he
    · simp [Found]
  | respondError e => cases hv; cases y <;> trivial
  | finished => cases hv
  | crashed e => cases hv
  | _ => exact h.elim

/-- What an artifact is listed as does not change. -/
theorem listed_kept {t : List (State × Label)} {row : ArtifactRow}
    (hr : Reachable (step threshold) init s) (ht : Trail (step threshold) s t s')
    (ha : s.world.db.artifacts.get (d,.markdown) = some row) :
    ∃ row', s'.world.db.artifacts.get (d,.markdown) = some row' ∧ listed row' = listed row := by
  obtain ⟨row',ha',hid,-⟩ := preserves_trail hr ht _ _ ha
  obtain ⟨t₀,h₀⟩ := id hr
  obtain ⟨document,hdoc,hkey⟩ := book_artifactKey (book_of_reachable hr) ha
  obtain ⟨document',hdoc',hkey'⟩ := book_artifactKey (book_of_reachable ⟨_,h₀.trans ht⟩) ha'
  obtain rfl := Option.some.inj (((grows_trail ht).documents _ _ hdoc).symm.trans hdoc')
  refine ⟨row',ha',?_⟩
  rw [listed, listed, hid, hkey, hkey']

theorem asked_of_wire (h : Reachable (step threshold) init s) {r : ℕ} {y : Response}
    (hw : s.world.wire r = some y) : ∃ q, s.requests r = some q := by
  refine h.invariant (I := fun s => ∀ r y, s.world.wire r = some y → ∃ q, s.requests r = some q) ?_
    (fun s l s' hr ih hstep r y hw => ?_) r y hw
  · intro r y hw
    cases hw
  · have hm := step_move hstep
    have hkept : ∀ {q}, s.requests r = some q → ∃ q', s'.requests r = some q' :=
      fun hq => (account_step hm hq).imp (fun _ h => h.1)
    rcases wire_step hm hw with hw | ⟨e,-,a,hq⟩ | ⟨a,o,out,-,hq,-⟩
    · obtain ⟨q,hq⟩ := ih r y hw
      exact hkept hq
    · exact hkept hq
    · exact hkept hq

/-- A request for the artifacts of a document that has one answers with it,
and the owner is not told that the document does not exist. -/
theorem lists_of_trail {t : List (State × Label)} {row : ArtifactRow} {r : ℕ} {s₀ : State}
    (hr : Reachable (step threshold) init s) (ht : Trail (step threshold) s t s')
    (ha : s.world.db.artifacts.get (d,.markdown) = some row)
    (harr : (s₀,.arrive r b (.listArtifacts d)) ∈ t) :
    (∃ q, s'.requests r = some q ∧ Lists s'.world b d [listed row] q.stage ∧
      (Owned s.world b d → Found b d q.stage)) ∧
    (∀ found, s'.world.wire r = some (.artifacts found) → found = [listed row]) ∧
      (Owned s.world b d → s'.world.wire r ≠ some (.error .documentNotFound)) := by
  induction ht with
  | start => cases harr
  | @next t u v l ht hstep ih =>
    obtain ⟨t₀,h₀⟩ := id hr
    have hu : Reachable (step threshold) init u := ⟨_,h₀.trans ht⟩
    have hm := step_move hstep
    obtain ⟨row',ha',hlisted⟩ := listed_kept hr ht ha
    rcases List.mem_cons.mp harr with he | harr
    · obtain ⟨rfl,rfl⟩ := Prod.mk.inj he
      cases hm with
      | arrive account route hnone =>
        have hquiet : s₀.world.wire r = none := by
          by_contra hw
          obtain ⟨y,hy⟩ := Option.ne_none_iff_exists'.mp hw
          obtain ⟨q,hq⟩ := asked_of_wire hu hy
          rw [hnone] at hq
          cases hq
        refine ⟨⟨_,setStage_self _ _ _ _,⟨rfl,rfl⟩,fun _ => ⟨rfl,rfl⟩⟩,fun found hw => ?_,
          fun _ hw => ?_⟩
        · cases hquiet.symm.trans hw
        · cases hquiet.symm.trans hw
    obtain ⟨⟨q,hq,hl,hf⟩,hwire,hdenied⟩ := ih harr
    refine ⟨?_,fun found hw => ?_,fun ho hw => ?_⟩
    · by_cases hat : requestAt l = some r
      · have hg := move_grows hm
        cases hm with
        | arrive account route hnone =>
          obtain rfl := Option.some.inj hat
          rw [hnone] at hq
          cases hq
        | serve hz hv hexec =>
          obtain rfl := Option.some.inj hat
          obtain rfl := Option.some.inj (hq.symm.trans hz)
          refine ⟨_,setStage_self _ _ _ _,(lists_serve hl (fun ho => ?_) hv hexec).grow hg,
            fun ho => found_serve (hf ho) (ho.grow (grows_trail ht)) hv hexec⟩
          rw [listArtifacts_eq ha' ho, List.map_singleton, hlisted]
        | abort hz =>
          obtain rfl := Option.some.inj hat
          exact ⟨_,setStage_self _ _ _ _,trivial,fun _ => trivial⟩
        | _ => cases hat
      · exact ⟨q,by rw [frame_request hm hat, hq],hl.grow (move_grows hm),hf⟩
    · rcases wire_step hm hw with hw | ⟨e,he,-⟩ | ⟨a,o,out,rfl,hq',-⟩
      · exact hwire found hw
      · cases he
      · obtain rfl := Option.some.inj (hq.symm.trans hq')
        exact hl
    · rcases wire_step hm hw with hw | ⟨e,he,a,hq'⟩ | ⟨a,o,out,rfl,hq',-⟩
      · exact hdenied ho hw
      · obtain rfl := Option.some.inj (hq.symm.trans hq')
        exact hf ho (Response.error.inj he).symm
      · obtain rfl := Option.some.inj (hq.symm.trans hq')
        exact hf ho rfl

/-- A client that has been told that its job is completed, and then asks for
the artifacts of the document, gets one link, always the same, and the object
behind it is there; the owner is not told that there is no such document. -/
theorem completed_is_listed {t : List (State × Label)} {r : ℕ} {a : AccountId} {y : Response}
    {x : JobResponse} {s₀ : State} (hr : Reachable (step threshold) init s)
    (ht : Trail (step threshold) s t s') (hrec : .received a y ∈ s.world.history)
    (hy : jobOf y = some x) (hx : x.status = .completed)
    (harr : (s₀,.arrive r b (.listArtifacts x.documentId)) ∈ t) :
    ∃ row, s.world.db.artifacts.get (x.documentId,.markdown) = some row ∧
      (s'.world.objects row.objectKey).isSome = true ∧
      (∀ items, s'.world.wire r = some (.artifacts items) → items = [listed row]) ∧
      (Owned s.world b x.documentId → s'.world.wire r ≠ some (.error .documentNotFound)) := by
  obtain ⟨job,hjob,hp⟩ := (told_of_reachable hr).history a y x hrec hy
  have hsame : toResponse job = x := hp.final (by rw [hx]; rfl)
  have hdone : ∃ j row, s.world.db.jobs.get j = some row ∧ row.documentId = x.documentId ∧
      row.status = .completed := ⟨_,job,hjob,by rw [← hsame]; rfl,by rw [← hx, ← hsame]; rfl⟩
  have hbook := book_of_reachable hr
  have hlast := (lastCompleted_isSome hbook x.documentId).mpr hdone
  rw [← book_latest hbook, Option.isSome_map] at hlast
  obtain ⟨row,hrow⟩ := Option.isSome_iff_exists.mp hlast
  exact ⟨row,hrow,(grows_trail ht).objects _ (backed_of_reachable hr _ _ hrow),
    (lists_of_trail hr ht hrow harr).2⟩

def heardRun : List Label := toldRun++askLabels++[.receive 2]

def listLabels : List Label :=
  .arrive 3 7 (.listArtifacts 1)::List.replicate 4 (.serve 3 {} .ok)

def lists : Response → Bool
  | .artifacts _ => true
  | _ => false

theorem completed_is_listed_sample :
    ∃ row items, (after (heardRun++listLabels)).world.wire 3 = some (.artifacts items) ∧
      items = [listed row] ∧
      ((after (heardRun++listLabels)).world.objects row.objectKey).isSome = true ∧
      (after (heardRun++listLabels)).world.wire 3 ≠ some (.error .documentNotFound) := by
  have hrun : ((run (step 100) init (heardRun++listLabels)).isSome &&
      (after heardRun).world.history.any (hears .completed) &&
      ((after heardRun).world.db.documents.get 1).any (fun row => row.accountId = 7) &&
      ((after (heardRun++listLabels)).world.wire 3).any lists) = true := by decide +kernel
  simp only [Bool.and_eq_true] at hrun
  obtain ⟨⟨⟨hsome,hheard⟩,hany⟩,hlisted⟩ := hrun
  obtain ⟨a,y,x,hrec,hy,-,hdoc,hst⟩ := sampled_of_hears hheard
  obtain ⟨document,hget,hacc⟩ := (Option.any_eq_true _ _).mp hany
  obtain ⟨hr,ht⟩ := trail_path_append hsome
  obtain ⟨answer,hw,hlisted⟩ := (Option.any_eq_true _ _).mp hlisted
  have harr : (after heardRun,.arrive 3 7 (.listArtifacts x.documentId)) ∈
      path (step 100) (after heardRun) listLabels := by
    rw [hdoc]
    exact List.mem_append_right _ (List.mem_singleton_self _)
  obtain ⟨row,-,hobj,hitems,hdenied⟩ := completed_is_listed hr ht hrec hy hst harr
  have howner : Owned (after heardRun).world 7 x.documentId := by
    rw [hdoc]
    exact ⟨document,hget,by simpa using hacc⟩
  cases answer with
  | artifacts items => exact ⟨row,items,hw,hitems items hw,hobj,hdenied howner⟩
  | _ => cases hlisted

end Listing

end DocPipeline.Sessions
