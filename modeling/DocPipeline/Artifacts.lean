import DocPipeline.Budget

/-!
# Artifacts, jobs and stored objects

One commit completes a job and upserts the artifact row of its document, so
the artifact table follows the completions in the log: a document has a row
from its first completed job on, and the row names the latest of them. The
upsert refreshes the job and the key only, and the object it names was put
before the transaction that names it began.
-/

set_option autoImplicit false

namespace DocPipeline.Artifacts
open DocPipeline.Identifiers DocPipeline.Records DocPipeline.Database DocPipeline.Calls
open DocPipeline.Consumer DocPipeline.Routes DocPipeline.System DocPipeline.Effects
open DocPipeline.Moves DocPipeline.Transactions DocPipeline.Pending DocPipeline.Stances
open DocPipeline.Engagement DocPipeline.Knowledge DocPipeline.Ledger DocPipeline.Bookkeeping
open DocPipeline.Exclusion KeyedTable LabelledRuns

def completes : Event → Option Uuid
  | .moved _ job .started .completed _ => some job
  | _ => none

def lastCompleted (db : Tables) (document : Uuid) (log : List Event) : Option Uuid :=
  log.findSome? fun e => (completes e).filter fun job =>
    (db.jobs.get job).any (fun row => row.documentId = document)

section Book
variable {db db' : Tables} {log es : List Event}

theorem completes_quiet {e : Event} (h : reading e = none) : completes e = none := by
  cases e <;> simp_all [reading, completes]

theorem completes_completed (p : Proc) (job : Uuid) (n : ℕ) :
    completes (.moved p job .started .completed n) = some job := rfl

theorem completes_moved {p : Proc} {job : Uuid} {a b : JobStatus} {n : ℕ}
    (h : edge a b = true) :
    completes (.moved p job a b n) = if b = .completed then some job else none := by
  cases a <;> cases b <;> simp_all [edge, completes]

/-- The completions in the log are the completed rows. -/
theorem book_completes (h : Book db log) (j : Uuid) :
    (∃ e ∈ log, completes e = some j) ↔
      ∃ row, db.jobs.get j = some row ∧ row.status = .completed := by
  induction h with
  | empty => simp [Tables.empty, Table.get_empty]
  | quiet h es hes ih =>
    rw [← ih]
    constructor
    · rintro ⟨e,he,hc⟩
      rcases List.mem_append.mp he with he | he
      · rw [completes_quiet (hes e he)] at hc
        cases hc
      · exact ⟨e,he,hc⟩
    · rintro ⟨e,he,hc⟩
      exact ⟨e,List.mem_append_right _ he,hc⟩
  | @post db db' log es h hp ih =>
    rcases posting_jobs hp with ⟨hjobs,rfl⟩ | ⟨x,ho⟩ | ⟨w,old,new,hs⟩
    · rw [hjobs]
      exact ih
    · rw [ho.log, ho.jobs]
      split
      · rename_i hid
        subst hid
        simp only [ho.fresh] at ih
        simp [completes, ho.status] at ih ⊢
        exact ih
      · simpa [completes] using ih
    · have he := hs.replaces.edge
      rw [hs.log, hs.jobs]
      split
      · rename_i hid
        subst hid
        have hnot : ¬ ∃ e ∈ log, completes e = some old.id := by
          rw [ih]
          rintro ⟨row,hrow,hst⟩
          obtain rfl := Option.some.inj (hs.row.symm.trans hrow)
          simp [hst, edge] at he
        simp only [List.singleton_append, List.mem_cons, exists_eq_or_imp, hnot, or_false,
          completes_moved he]
        simp
      · rename_i hid
        have : completes (.moved (.worker w) old.id old.status new.status new.attempts) ≠ some j := by
          rw [completes_moved he]
          split <;> simp [hid]
        simpa [this] using ih

/-- A completion stays the latest while its job keeps its document. -/
theorem lastCompleted_congr (d : Uuid) (log : List Event)
    (h : ∀ e ∈ log, ∀ j, completes e = some j →
      (db'.jobs.get j).map JobRow.documentId = (db.jobs.get j).map JobRow.documentId) :
    lastCompleted db' d log = lastCompleted db d log := by
  induction log with
  | nil => rfl
  | cons e log ih =>
    have ht := ih (fun x hx => h x (List.mem_cons_of_mem _ hx))
    have he : ((completes e).filter fun job =>
          (db'.jobs.get job).any (fun row => row.documentId = d)) =
        (completes e).filter fun job => (db.jobs.get job).any (fun row => row.documentId = d) := by
      cases hc : completes e with
      | none => rfl
      | some j =>
        have hj := h e List.mem_cons_self j hc
        cases hd : db.jobs.get j <;> cases hd' : db'.jobs.get j <;>
          simp_all [Option.filter]
    simp only [lastCompleted, List.findSome?_cons, he]
    rw [lastCompleted, lastCompleted] at ht
    rw [ht]

theorem lastCompleted_append (d : Uuid) {es : List Event} (h : ∀ e ∈ es, completes e = none) :
    lastCompleted db d (es++log) = lastCompleted db d log := by
  have hn : es.findSome? (fun e => (completes e).filter fun job =>
      (db.jobs.get job).any (fun row => row.documentId = d)) = none := by
    rw [List.findSome?_eq_none_iff]
    intro e he
    rw [h e he]
    rfl
  rw [lastCompleted, List.findSome?_append, hn]
  rfl

/-- A posting keeps the documents of the jobs in the log. -/
theorem documents_of_log (h : Book db log) (hp : Posting db log es db') :
    ∀ e ∈ log, ∀ j, completes e = some j →
      (db'.jobs.get j).map JobRow.documentId = (db.jobs.get j).map JobRow.documentId := by
  intro e he j hj
  obtain ⟨row,hrow,-⟩ := (book_completes h j).mp ⟨e,he,hj⟩
  obtain ⟨row',hrow',hr⟩ := posting_evolve hp hrow
  rw [hrow, hrow']
  rcases hr with rfl | hr
  · rfl
  · simp [hr.document]

/-- A posting other than a completion leaves the artifacts alone. -/
theorem posting_artifacts (hp : Posting db log es db') :
    (db'.artifacts = db.artifacts ∧ ∀ e ∈ es, completes e = none) ∨
      ∃ w old a, db.jobs.get old.id = some old ∧ Produces old.id old a ∧
        es = [.moved (.worker w) old.id .started .completed old.attempts] ∧
        db'.artifacts = db.artifacts.upsert refresh a := by
  cases hp with
  | completed w old now again a hrow hst ha => exact Or.inr ⟨w,old,a,hrow,ha,rfl,rfl⟩
  | _ => exact Or.inl ⟨rfl,by simp [completes]⟩

theorem slot_refresh (a old : ArtifactRow) : (refresh old a).slot = old.slot := rfl

theorem upserted_objectKey (old : Option ArtifactRow) (a : ArtifactRow) :
    ((old.map (refresh · a)).getD a).objectKey = a.objectKey := by
  cases old <;> rfl

/-- The artifact row of a document names its latest completed job. -/
theorem book_latest (h : Book db log) (d : Uuid) :
    (db.artifacts.get (d,.markdown)).map ArtifactRow.jobId = lastCompleted db d log := by
  induction h with
  | empty => rfl
  | quiet h es hes ih =>
    rw [ih, lastCompleted_append d (fun e he => completes_quiet (hes e he))]
  | @post db db' log es h hp ih =>
    have hdoc := documents_of_log h hp
    rcases posting_artifacts hp with ⟨ha,hes⟩ | ⟨w,old,a,hrow,ha,rfl,he⟩
    · rw [ha, ih, lastCompleted_append d hes, lastCompleted_congr d log hdoc]
    · obtain ⟨row,hrow',hr⟩ := posting_evolve hp hrow
      have hd : row.documentId = old.documentId := by
        rcases hr with rfl | hr
        · rfl
        · exact hr.document
      rw [he, Table.get_upsert (fun x => slot_refresh a x), ← lastCompleted_congr d log hdoc] at *
      simp only [lastCompleted, List.singleton_append, List.findSome?_cons,
        completes_completed, Option.filter_some, hrow', Option.any_some, hd]
      by_cases hdd : old.documentId = d
      · have hs : a.slot = (d,.markdown) := by rw [ArtifactRow.slot, ha.document, ha.type, hdd]
        cases hg : db.artifacts.get (d,.markdown) <;> simp [hs, hdd, ha.job, refresh]
      · have hs : a.slot ≠ (d,.markdown) := by
          rw [ArtifactRow.slot, ha.document]
          simp [hdd]
        simpa [hs, hdd, lastCompleted] using ih

/-- The key of an artifact is built from the owner of its document. -/
theorem book_artifactKey (h : Book db log) {d : Uuid} {a : ArtifactRow}
    (ha : db.artifacts.get (d,.markdown) = some a) :
    ∃ document, db.documents.get d = some document ∧
      a.objectKey = artifactKey document.accountId d := by
  induction h generalizing a with
  | empty => simp [Tables.empty, Table.get_empty] at ha
  | quiet h es hes ih => exact ih ha
  | @post db db' log es h hp ih =>
    have hkept : ∀ a : ArtifactRow, (∃ document, db.documents.get d = some document ∧
        a.objectKey = artifactKey document.accountId d) →
        ∃ document, db'.documents.get d = some document ∧
          a.objectKey = artifactKey document.accountId d := by
      rintro a ⟨document,hd,hk⟩
      exact ⟨document,posting_documents hp hd,hk⟩
    rcases posting_artifacts hp with ⟨he,-⟩ | ⟨w,old,x,hrow,hx,-,he⟩
    · rw [he] at ha
      exact hkept a (ih ha)
    · rw [he, Table.get_upsert (fun y => slot_refresh x y)] at ha
      split at ha
      · rename_i hs
        obtain rfl := Option.some.inj ha
        have hdoc : old.documentId = d := by
          rw [← hx.document]
          exact congrArg Prod.fst hs
        obtain ⟨document,hd,hacc⟩ := book_owner h hrow
        refine hkept _ ⟨document,hdoc ▸ hd,?_⟩
        rw [hacc, ← hdoc, ← hx.key, upserted_objectKey]
      · exact hkept a (ih ha)

/-- An attempt that a commit has ended is behind its job. -/
theorem book_ended (h : Book db log) {p : Proc} {j : Uuid} {b : JobStatus} {n : ℕ}
    (he : .moved p j .started b n ∈ log) : ∃ row, db.jobs.get j = some row ∧
      n ≤ row.attempts ∧ (row.status = .started → n < row.attempts) := by
  refine book_moved (fun old new hr ha _ hn => ?_) (fun old new hr hold => ?_) h he
  · refine ⟨hn.ge,fun hst => ?_⟩
    have hedge := hr.edge
    rw [ha, hst] at hedge
    cases hedge
  · have hn := hr.attempts
    refine ⟨hold.1.trans hr.attempts_le,fun hst => ?_⟩
    simp only [hst, if_true] at hn
    have := hold.1
    omega

/-- An attempt ends at most once: one that failed never completes. -/
theorem book_ends_once (h : Book db log) {p q : Proc} {j : Uuid} {a b : JobStatus} {n : ℕ}
    (ha : .moved p j .started a n ∈ log) (hb : .moved q j .started b n ∈ log) : a = b := by
  induction h with
  | empty => cases ha
  | @quiet db log h es hes ih =>
    have hold : ∀ {r : Proc} {c : JobStatus}, Event.moved r j .started c n ∈ es++log →
        Event.moved r j .started c n ∈ log := by
      intro r c hm
      rcases List.mem_append.mp hm with hm | hm
      · have := hes _ hm
        simp [reading] at this
      · exact hm
    exact ih (hold ha) (hold hb)
  | @post db db' log es h hp ih =>
    rcases posting_jobs hp with ⟨-,rfl⟩ | ⟨x,ho⟩ | ⟨w,old,new,hs⟩
    · exact ih ha hb
    · rw [ho.log] at ha hb
      exact ih (by simpa using ha) (by simpa using hb)
    · -- the attempt that ends now has not ended before
      have hnew : ∀ {r : Proc} {c : JobStatus}, Event.moved r j .started c n ∈ log →
          ¬ (j = old.id ∧ .started = old.status ∧ n = new.attempts) := by
        rintro r c hlog ⟨rfl,hst,rfl⟩
        obtain ⟨row,hrow,-,hlt⟩ := book_ended h hlog
        obtain rfl := Option.some.inj (hs.row.symm.trans hrow)
        have := hlt hst.symm
        have := hs.replaces.attempts_le
        omega
      rw [hs.log] at ha hb
      simp only [List.singleton_append, List.mem_cons, Event.moved.injEq] at ha hb
      rcases ha with ⟨-,rfl,hst,rfl,rfl⟩ | ha <;> rcases hb with ⟨-,hid,hst',rfl,hn'⟩ | hb
      · rfl
      · exact absurd ⟨rfl,hst,rfl⟩ (hnew hb)
      · exact absurd ⟨hid,hst',hn'⟩ (hnew ha)
      · exact ih ha hb

end Book

section Steps
variable {threshold : ℕ} {s s' : State} {l : Label}

structure Files (s s' : State) (job : Uuid) (started : JobRow) (a : ArtifactRow) : Prop where
  produces : Produces job started a
  stored : Stored s.world started
  history : ∃ w, s'.world.history =
    .moved (.worker w) job .started .completed started.attempts::s.world.history
  artifacts : s'.world.db.artifacts = s.world.db.artifacts.upsert refresh a

theorem artifacts_foldl (db : Tables) (ws : List Write) (h : ∀ a, .upsertArtifact a ∉ ws) :
    (ws.foldl Write.apply db).artifacts = db.artifacts := by
  induction ws generalizing db with
  | nil => rfl
  | cons w ws ih =>
    rw [List.foldl_cons, ih _ (fun a ha => h a (List.mem_cons_of_mem _ ha))]
    cases w with
    | upsertArtifact a => exact absurd List.mem_cons_self (h a)
    | _ => rfl

/-- Only the commit of a processing session changes the artifacts. -/
theorem commit_artifacts (hs : Sound s) {w : ℕ} {m : Message} {site : Site}
    (hw : s.workers w = .handling m (.commit site)) :
    (s.world.commit (.worker w)).db.artifacts = s.world.db.artifacts ∨
      ∃ job started a, site = .processed job started ∧ Produces job started a ∧
        Stored s.world started ∧ (s.world.commit (.worker w)).history =
          .moved (.worker w) job .started .completed started.attempts::s.world.history ∧
        (s.world.commit (.worker w)).db.artifacts =
          s.world.db.artifacts.upsert refresh a := by
  have hop := hs.opened.workers w
  have hk := hs.informed.workers w
  have hh := hs.engaged.holds w
  have hready := hs.guarded.fenced.isolated.ready (.worker w)
  rw [hw] at hop hk hh
  change opened (.commit site) _ at hop
  cases site with
  | processed job started =>
    obtain ⟨-,-,a,now,again,ha,hdb,hlog⟩ := commit_completed hready hop hh.2 hk.2
    exact Or.inr ⟨job,started,a,rfl,ha,hk.1,hlog,by rw [hdb]⟩
  | claimed job started =>
    obtain ⟨old,hws,-⟩ := hop
    exact Or.inl (artifacts_foldl _ _ (by simp [hws]))
  | requeued job started =>
    obtain ⟨old,new,hws,-⟩ := hop
    exact Or.inl (artifacts_foldl _ _ (by simp [hws]))
  | failed job started =>
    obtain ⟨old,new,hws,-⟩ := hop
    exact Or.inl (artifacts_foldl _ _ (by simp [hws]))
  | _ => exact Or.inl (by rw [(commit_nil hop).1])

/-- A step leaves the artifacts alone or files one of a job it completes. -/
theorem artifacts_step (hs : Sound s) (hm : Move threshold s l s') :
    s'.world.db.artifacts = s.world.db.artifacts ∨
      ∃ job started a, Files s s' job started a ∧
        ∃ w m, s.workers w = .handling m (.commit (.processed job started)) := by
  cases l with
  | call w o out =>
    cases hm with
    | @call w m p c k o out r σ hw hv hx =>
      by_cases hc : c = .commit
      · subst hc
        obtain ⟨site,rfl⟩ := phase_at_commit hv
        have hlog : (World.record σ (entered (k r) ++
            if Outcome.took out then performed (.commit site) else [])).history = σ.history := by
          cases hv
          cases r <;> simp [World.record, entered, performed]
        obtain ⟨-,rfl⟩ | ⟨-,rfl,-⟩ := exec_commit hx
        · rcases commit_artifacts hs hw with he | ⟨job,started,a,rfl,ha,hst,hh,he⟩
          · exact Or.inl he
          · exact Or.inr ⟨job,started,a,⟨ha,hst,⟨w,hlog.trans hh⟩,he⟩,w,m,hw⟩
        · exact Or.inl rfl
      · exact Or.inl (congrArg Tables.artifacts ((exec_effect hx).db hc))
  | serve q o out =>
    cases hm with
    | @serve _ x c k _ _ r σ hq hv hx =>
      left
      by_cases hc : c = .commit
      · subst hc
        have hop := hs.opened.requests q
        rw [hq] at hop
        obtain ⟨-,rfl⟩ | ⟨-,rfl,-⟩ := exec_commit hx
        · apply artifacts_foldl
          rcases stage_at_commit hv hop with hws | ⟨job,-,hws⟩ | ⟨id,url,row,-,hws,-⟩ <;>
            simp [hws]
        · rfl
      · exact congrArg Tables.artifacts ((exec_effect hx).db hc)
  | _ => exact Or.inl (by rw [(move_idle hm (by simp) (by simp)).db])

def Backed (s : State) : Prop :=
  ∀ slot a, s.world.db.artifacts.get slot = some a → (s.world.objects a.objectKey).isSome

theorem Backed.step (h : Backed s) (hs : Sound s) (hm : Move threshold s l s') : Backed s' := by
  intro slot a ha
  have hg := (move_grows hm).objects
  rcases artifacts_step hs hm with he | ⟨job,started,x,hf,-⟩
  · rw [he] at ha
    exact hg _ (h slot a ha)
  · rw [hf.artifacts, Table.get_upsert (fun y => slot_refresh x y)] at ha
    split at ha
    · obtain rfl := Option.some.inj ha
      rw [upserted_objectKey, hf.produces.key]
      exact hg _ hf.stored
    · exact hg _ (h slot a ha)

theorem backed_of_reachable (h : Reachable (step threshold) init s) : Backed s := by
  have h₀ : Backed init := fun _ a ha => by cases ha
  exact h.invariant h₀ (fun s l s' hr hs hstep => hs.step (sound_of_reachable hr) (step_move hstep))

def Preserves (s s' : State) : Prop :=
  ∀ slot a, s.world.db.artifacts.get slot = some a →
    ∃ a', s'.world.db.artifacts.get slot = some a' ∧ a'.id = a.id ∧ a'.createdAt = a.createdAt

theorem Preserves.step {s₀ : State} (h : Preserves s₀ s) (hs : Sound s)
    (hm : Move threshold s l s') : Preserves s₀ s' := by
  intro slot a ha
  obtain ⟨x,hx,hid,hat⟩ := h slot a ha
  rcases artifacts_step hs hm with he | ⟨job,started,y,hf,-⟩
  · exact ⟨x,he ▸ hx,hid,hat⟩
  · rw [hf.artifacts]
    simp only [Table.get_upsert (fun z => slot_refresh y z)]
    split
    · exact ⟨refresh x y,by simp [hx],hid,hat⟩
    · exact ⟨x,hx,hid,hat⟩

theorem preserves_trail {t : List (State × Label)} (h : Reachable (step threshold) init s)
    (ht : Trail (step threshold) s t s') : Preserves s s' :=
  ht.relates (fun _ _ a ha => ⟨a,ha,rfl,rfl⟩)
    (fun _ _ _ _ hr hp hstep => hp.step (sound_of_reachable hr) (step_move hstep)) h

theorem lastCompleted_isSome {db : Tables} {log : List Event} (h : Book db log) (d : Uuid) :
    (lastCompleted db d log).isSome ↔
      ∃ j row, db.jobs.get j = some row ∧ row.documentId = d ∧ row.status = .completed := by
  simp only [lastCompleted, List.findSome?_isSome_iff]
  constructor
  · rintro ⟨e,he,hsome⟩
    obtain ⟨j,hj⟩ := Option.isSome_iff_exists.mp hsome
    obtain ⟨hc,hd⟩ := Option.filter_eq_some_iff.mp hj
    obtain ⟨row,hrow,hst⟩ := (book_completes h j).mp ⟨e,he,hc⟩
    exact ⟨j,row,hrow,by simpa [hrow] using hd,hst⟩
  · rintro ⟨j,row,hrow,hd,hst⟩
    obtain ⟨e,he,hc⟩ := (book_completes h j).mpr ⟨row,hrow,hst⟩
    exact ⟨e,he,by simp [hc, hrow, hd]⟩

/-- The artifact table, the job table and the object store agree in every
reachable state: for each document, and for each step taken from there. -/
theorem artifacts_agree (h : Reachable (step threshold) init s) (d : Uuid) :
    ((∃ a ∈ s.world.db.artifacts.rows, a.slot = (d,.markdown)) ↔
      ∃ j row, s.world.db.jobs.get j = some row ∧ row.documentId = d ∧
        row.status = .completed) ∧
    s.world.db.artifacts.rows.countP (fun a => a.slot = (d,.markdown)) ≤ 1 ∧
    (∀ a ∈ s.world.db.artifacts.rows, a.slot = (d,.markdown) →
      lastCompleted s.world.db d s.world.history = some a.jobId ∧
      (∃ document, s.world.db.documents.get d = some document ∧
        a.objectKey = artifactKey document.accountId d) ∧
      (s.world.objects a.objectKey).isSome ∧
      ∀ t s', Trail (step threshold) s t s' → ∃ a' ∈ s'.world.db.artifacts.rows,
        a'.slot = (d,.markdown) ∧ a'.id = a.id ∧ a'.createdAt = a.createdAt) ∧
    (∀ l s', step threshold s l = some s' → s'.world.db.artifacts ≠ s.world.db.artifacts →
      ∃ w j n, s'.world.history =
          .moved (.worker w) j .started .completed n::s.world.history ∧
        ∀ t s'', Trail (step threshold) s' t s'' → ∀ p b, .moved p j .started b n ∈
          s''.world.history → b = .completed) := by
  have hb := book_of_reachable h
  refine ⟨?_,?_,fun a ha hslot => ?_,fun l s' hstep hne => ?_⟩
  · rw [← lastCompleted_isSome hb d, ← book_latest hb d, Option.isSome_map]
    constructor
    · rintro ⟨a,ha,hslot⟩
      rw [← hslot, Table.get_of_mem ha]
      rfl
    · intro hsome
      obtain ⟨a,ha⟩ := Option.isSome_iff_exists.mp hsome
      exact ⟨a,Table.mem_of_get ha,Table.key_of_get ha⟩
  · have hn := List.nodup_iff_count_le_one.mp s.world.db.artifacts.nodup (d,.markdown)
    rw [List.count, List.countP_map] at hn
    refine le_trans (le_of_eq ?_) hn
    apply List.countP_congr
    intro a _
    simp
  · have hget : s.world.db.artifacts.get (d,.markdown) = some a := by
      rw [← hslot]
      exact Table.get_of_mem ha
    refine ⟨by rw [← book_latest hb d, hget]; rfl,book_artifactKey hb hget,
      backed_of_reachable h _ a hget,fun t s' ht => ?_⟩
    obtain ⟨a',ha',hid,hat⟩ := preserves_trail h ht _ a hget
    exact ⟨a',Table.mem_of_get ha',Table.key_of_get ha',hid,hat⟩
  · rcases artifacts_step (sound_of_reachable h) (step_move hstep) with he | ⟨job,started,a,hf,-⟩
    · exact absurd he hne
    · obtain ⟨w,hh⟩ := hf.history
      refine ⟨w,job,started.attempts,hh,fun t s'' ht p b hp => ?_⟩
      have hr := h.next hstep
      have hkept : .moved (.worker w) job .started .completed started.attempts ∈
          s''.world.history := by
        apply (grows_trail ht).mem
        rw [hh]
        exact List.mem_cons_self
      obtain ⟨t₀,ht₀⟩ := hr
      exact book_ends_once (book_of_reachable ⟨_,ht₀.trans ht⟩) hp hkept

end Steps

def completeRun : List Label := claimRun++List.replicate 6 (.call 0 {} .ok)++
  [.call 0 { uuid := 3 } .ok]++List.replicate 2 (.call 0 {} .ok)

theorem artifacts_agree_sample :
    ∃ a ∈ (after completeRun).world.db.artifacts.rows, a.slot = (1,.markdown) ∧
      lastCompleted (after completeRun).world.db 1 (after completeRun).world.history =
        some a.jobId ∧ ((after completeRun).world.objects a.objectKey).isSome := by
  have hr : Reachable (step 100) init (after completeRun) :=
    reachable_of_run completeRun (by decide +kernel)
  have ha := artifacts_agree hr 1
  obtain ⟨a,hmem,hslot⟩ := ha.1.mpr ⟨2,_,rfl,by decide +kernel⟩
  obtain ⟨hlast,-,hobj,-⟩ := ha.2.2.1 a hmem hslot
  exact ⟨a,hmem,hslot,hlast,hobj⟩

end DocPipeline.Artifacts
