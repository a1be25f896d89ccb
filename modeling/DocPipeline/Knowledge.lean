import DocPipeline.Engagement

/-!
# What the handler has learnt on its way

Documents, stored objects and the history only ever grow, so what the
handler has read of them stays true. The row it reads in `process` is the
one it claimed, the artifact it writes belongs to that row, and the branch it
takes in `_handle_failure` is the one its attempt count asks for.
-/

set_option autoImplicit false

namespace DocPipeline.Knowledge
open DocPipeline.Identifiers DocPipeline.Records DocPipeline.Database DocPipeline.Calls
open DocPipeline.Consumer DocPipeline.Routes DocPipeline.System DocPipeline.Effects
open DocPipeline.Moves DocPipeline.Answers DocPipeline.Transactions DocPipeline.Pending
open DocPipeline.Reservations DocPipeline.Stances DocPipeline.Engagement
open KeyedTable LabelledRuns EffectProgram

structure Grows (σ σ' : World) : Prop where
  documents : ∀ id row, σ.db.documents.get id = some row → σ'.db.documents.get id = some row
  history : ∃ es, σ'.history = es ++ σ.history
  objects : ∀ key, (σ.objects key).isSome → (σ'.objects key).isSome

section Worlds
variable {σ σ' σ'' : World} {p : Proc} {c : Call}

theorem Grows.refl (σ : World) : Grows σ σ := ⟨fun _ _ h => h,⟨[],rfl⟩,fun _ h => h⟩

theorem Grows.trans (h : Grows σ σ') (h' : Grows σ' σ'') : Grows σ σ'' := by
  obtain ⟨es,he⟩ := h.history
  obtain ⟨es',he'⟩ := h'.history
  refine ⟨fun id row hr => h'.documents id row (h.documents id row hr),⟨es'++es,?_⟩,
    fun key hk => h'.objects key (h.objects key hk)⟩
  rw [he', he, List.append_assoc]

theorem Grows.mem (h : Grows σ σ') {e : Event} (he : e ∈ σ.history) : e ∈ σ'.history := by
  obtain ⟨es,hs⟩ := h.history
  rw [hs]
  exact List.mem_append_right _ he

theorem grows_record (es : List Event) : Grows σ (World.record σ es) :=
  ⟨fun _ _ h => h,⟨es,rfl⟩,fun _ h => h⟩

theorem grows_put (key : String) (content : Bytes) :
    Grows σ { σ with objects := Function.update σ.objects key (some content) } := by
  refine ⟨fun _ _ h => h,⟨[],rfl⟩,fun k hk => ?_⟩
  by_cases h : k = key
  · subst h
    simp
  · simpa [Function.update_of_ne h] using hk

theorem grows_of_eq (hd : σ'.db = σ.db) (hh : σ'.history = σ.history)
    (ho : σ'.objects = σ.objects) : Grows σ σ' :=
  ⟨fun _ _ h => by rw [hd]; exact h,⟨[],hh⟩,fun _ h => by rw [ho]; exact h⟩

theorem Effect.grows (he : Effect σ p c σ') : Grows σ σ' := by
  cases he with
  | commit =>
    exact ⟨fun _ _ h => documents_kept _ h,⟨_,rfl⟩,fun _ h => h⟩
  | putObject key content => exact grows_put key content
  | ack => exact grows_of_eq (settle_db σ p) (settle_history σ p) (settle_objects σ p)
  | nack => exact grows_of_eq (requeue_db σ p) (requeue_history σ p) (requeue_objects σ p)
  | respond x => exact grows_of_eq (send_db σ p x) (send_history σ p x) (send_objects σ p x)
  | _ => exact grows_of_eq rfl rfl rfl

end Worlds

theorem move_grows {threshold : ℕ} {s s' : State} {l : Label} (hm : Move threshold s l s') :
    Grows s.world s'.world := by
  cases hm with
  | call hw hv he => exact (Effect.grows (exec_effect he)).trans (grows_record _)
  | serve hq hv he => exact (Effect.grows (exec_effect he)).trans (grows_record _)
  | stop hw =>
    exact grows_of_eq (requeue_db _ _) (requeue_history _ _) (requeue_objects _ _)
  | die hw =>
    exact grows_of_eq (requeue_db _ _) (requeue_history _ _) (requeue_objects _ _)
  | lose hw hu =>
    exact grows_of_eq (requeue_db _ _) (requeue_history _ _) (requeue_objects _ _)
  | receive hq hw => exact ⟨fun _ _ h => h,⟨[_],rfl⟩,fun _ h => h⟩
  | upload content hu => exact grows_put _ content
  | _ => exact grows_of_eq rfl rfl rfl

def Filed (σ : World) (account : AccountId) (id : Uuid) (document : DocumentRow) : Prop :=
  σ.db.documents.get id = some document ∧ document.accountId = account

def Sourced (σ : World) (job : JobRow) : Prop :=
  ∃ document, Filed σ job.accountId job.documentId document ∧
    (σ.objects document.objectKey).isSome

def Stored (σ : World) (started : JobRow) : Prop :=
  (σ.objects (artifactKey started.accountId started.documentId)).isSome

structure Produces (job : Uuid) (started : JobRow) (a : ArtifactRow) : Prop where
  job : a.jobId = job
  document : a.documentId = started.documentId
  type : a.artifactType = .markdown
  key : a.objectKey = artifactKey started.accountId started.documentId

/-- The text of a failure that has been handed to `_handle_failure`. -/
def Failed (σ : World) (job : Uuid) (started : JobRow) (text : String) : Prop :=
  .failureHandled job started.attempts text ∈ σ.history

def Reported (σ : World) (ws : List Write) (job : Uuid) (started : JobRow) : Prop :=
  ∀ old new, .updateJob old new ∈ ws → ∃ text, Failed σ job started text ∧
    new.errorMessage = some text

def Knows (σ : World) (ws : List Write) : Phase → Prop
  | .processDocument _ started row => row = started
  | .processFetch _ started row document => row = started ∧ Filed σ started.accountId started.documentId document
  | .processParse _ started row document _ => row = started ∧ Filed σ started.accountId started.documentId document
  | .processPut _ started row document _ => row = started ∧ Filed σ started.accountId started.documentId document
  | .processArtifact _ started row document _ =>
    row = started ∧ Filed σ started.accountId started.documentId document ∧ Stored σ started
  | .processComplete job started row document _ =>
    (row = started ∧ Filed σ started.accountId started.documentId document) ∧ Stored σ started ∧
      ∀ a, .upsertArtifact a ∈ ws → Produces job started a
  | .commit (.processed job started) => Stored σ started ∧
      ∀ a, .upsertArtifact a ∈ ws → Produces job started a
  | .requeue job started exc => started.attempts < started.maxAttempts ∧
      Failed σ job started exc.str
  | .commit (.requeued job started) => started.attempts < started.maxAttempts ∧
      Reported σ ws job started
  | .rollback (.requeued _ started) _ => started.attempts < started.maxAttempts
  | .close (.requeued _ started) _ => started.attempts < started.maxAttempts
  | .enqueue _ started => started.attempts < started.maxAttempts
  | .fail job started exc => started.maxAttempts ≤ started.attempts ∧
      Failed σ job started exc.str
  | .commit (.failed job started) => started.maxAttempts ≤ started.attempts ∧
      Reported σ ws job started
  | _ => True

def KnowsStage (σ : World) : Stage → Prop
  | .checkObject dto document => Filed σ dto.accountId dto.documentId document
  | .checkDepth dto document => Filed σ dto.accountId dto.documentId document ∧
      (σ.objects document.objectKey).isSome
  | .insertJob dto document => Filed σ dto.accountId dto.documentId document ∧
      (σ.objects document.objectKey).isSome
  | .commitJob job => Sourced σ job
  | _ => True

def KnowsRequest (σ : World) : Option Request → Prop
  | some q => KnowsStage σ q.stage
  | none => True

def KnowsWorker (σ : World) (ws : List Write) : Worker → Prop
  | .handling _ p => Knows σ ws p
  | _ => True

theorem Filed.grow {σ σ' : World} {account : AccountId} {id : Uuid} {document : DocumentRow}
    (h : Filed σ account id document) (hg : Grows σ σ') : Filed σ' account id document :=
  ⟨hg.documents _ _ h.1,h.2⟩

theorem Filed.id {σ : World} {account : AccountId} {id : Uuid} {document : DocumentRow}
    (h : Filed σ account id document) : document.id = id :=
  Table.key_of_get h.1

theorem Sourced.grow {σ σ' : World} {job : JobRow} (h : Sourced σ job) (hg : Grows σ σ') :
    Sourced σ' job := by
  obtain ⟨document,hf,ho⟩ := h
  exact ⟨document,hf.grow hg,hg.objects _ ho⟩

theorem Knows.grow {σ σ' : World} {ws : List Write} {p : Phase} (h : Knows σ ws p)
    (hg : Grows σ σ') : Knows σ' ws p := by
  have hrep : ∀ {job started}, Reported σ ws job started → Reported σ' ws job started := by
    intro job started hr old new hu
    obtain ⟨text,ht,he⟩ := hr old new hu
    exact ⟨text,hg.mem ht,he⟩
  cases p with
  | processFetch job started row document => exact ⟨h.1,h.2.grow hg⟩
  | processParse job started row document content => exact ⟨h.1,h.2.grow hg⟩
  | processPut job started row document markdown => exact ⟨h.1,h.2.grow hg⟩
  | processArtifact job started row document markdown =>
    exact ⟨h.1,h.2.1.grow hg,hg.objects _ h.2.2⟩
  | processComplete job started row document markdown =>
    exact ⟨⟨h.1.1,h.1.2.grow hg⟩,hg.objects _ h.2.1,h.2.2⟩
  | requeue job started exc => exact ⟨h.1,hg.mem h.2⟩
  | fail job started exc => exact ⟨h.1,hg.mem h.2⟩
  | commit site =>
    cases site with
    | processed job started => exact ⟨hg.objects _ h.1,h.2⟩
    | requeued job started => exact ⟨h.1,hrep h.2⟩
    | failed job started => exact ⟨h.1,hrep h.2⟩
    | _ => trivial
  | rollback site e => cases site <;> exact h
  | close site e => cases site <;> exact h
  | processDocument job started row => exact h
  | enqueue job started => exact h
  | _ => trivial

/-- Ending the transaction keeps what does not depend on it. -/
theorem Knows.discard {σ : World} {ws : List Write} {p : Phase} (h : Knows σ ws p) :
    Knows σ [] p := by
  cases p with
  | processComplete job started row document markdown => exact ⟨h.1,h.2.1,by simp⟩
  | commit site =>
    cases site with
    | processed job started => exact ⟨h.1,by simp⟩
    | requeued job started => exact ⟨h.1,by simp [Reported]⟩
    | failed job started => exact ⟨h.1,by simp [Reported]⟩
    | _ => trivial
  | rollback site e => cases site <;> exact h
  | close site e => cases site <;> exact h
  | _ => exact h

def processing : Phase → Bool
  | .processJob _ _ | .processDocument _ _ _ | .processFetch _ _ _ _ | .processParse _ _ _ _ _ => true
  | .processPut _ _ _ _ _ | .processArtifact _ _ _ _ _ | .processComplete _ _ _ _ _ => true
  | _ => false

section Own
variable {σ σ' : World} {w : ℕ} {o : Oracle} {out : Outcome} {p : Phase} {c : Call}
  {k : Except Exc c.Resp → Phase} {r : Except Exc c.Resp} {ws : List Write}

theorem knows_onFailure (job : Uuid) (started : JobRow) (e : Exc) (es : List Event) :
    Knows (World.record σ (entered (onFailure job started e) ++ es)) ws
      (onFailure job started e) := by
  unfold onFailure
  split
  · rename_i h
    exact ⟨h,by simp [Failed, World.record, entered]⟩
  · rename_i h
    exact ⟨not_lt.mp h,by simp [Failed, World.record, entered]⟩

theorem knows_leave {ws' : List Write} {site : Site} {e e' : Option Exc} (es : List Event)
    (h : Knows σ ws' (.close site e')) :
    Knows (World.record σ (entered (leave site e) ++ es)) ws (leave site e) := by
  cases site with
  | processed job started =>
    cases e with
    | none => trivial
    | some e => exact knows_onFailure job started e es
  | requeued job started =>
    rcases e with _ | e
    · exact h
    · cases e <;> trivial
  | failed job started =>
    rcases e with _ | e
    · trivial
    · cases e <;> trivial
  | _ => cases e <;> trivial

/-- The seven calls of `process` between the claim and its commit. -/
theorem knows_processing (hp : processing p = true) (ho : opened p (σ.writesOf (.worker w)))
    (hh : Holds σ.db (stance p)) (h : Knows σ (σ.writesOf (.worker w)) p)
    (hv : view p = .calls c k) (he : exec σ (.worker w) o c out = some (r,σ')) (es : List Event) :
    Knows (World.record σ' es) (σ'.writesOf (.worker w)) (k r) := by
  have hg := (Effect.grows (exec_effect he)).trans (grows_record es)
  cases p with
  | processJob job started =>
    cases hv
    rcases r with e | _ | row
    · trivial
    · trivial
    · obtain ⟨hrow,rfl⟩ := ok_getForProcessing he
      exact Option.some.inj (hrow.symm.trans hh.2)
  | processDocument job started row =>
    cases hv
    rcases r with e | _ | document
    · trivial
    · trivial
    · obtain ⟨hrow,rfl⟩ := ok_getDocument he
      obtain rfl : row = started := h
      exact ⟨rfl,getDocument_eq_some.mp hrow⟩
  | processFetch | processParse =>
    cases hv
    cases r with
    | error e => trivial
    | ok content => exact ⟨h.1,h.2.grow hg⟩
  | processPut job started row document markdown =>
    cases hv
    cases r with
    | error e => trivial
    | ok _ =>
      obtain ⟨rfl,hfiled⟩ := h
      refine ⟨rfl,hfiled.grow hg,?_⟩
      rw [ok_putObject he, hfiled.id]
      simp [Stored, World.record]
  | processArtifact job started row document markdown =>
    cases hv
    cases r with
    | error e => trivial
    | ok a =>
      obtain ⟨rfl,hfiled,hstored⟩ := h
      refine ⟨⟨rfl,hfiled.grow hg⟩,hg.objects _ hstored,fun x hx => ?_⟩
      obtain ⟨id,now,-,rfl⟩ := ok_createArtifact he
      rw [writesOf_minted_self, show σ.writesOf _ = [] from ho] at hx
      obtain rfl := Write.upsertArtifact.inj (List.mem_singleton.mp hx)
      exact ⟨rfl,rfl,rfl,by rw [← hfiled.id]; rfl⟩
  | processComplete job started row document markdown =>
    cases hv
    rcases exec_updateStatus he with ⟨old,now,again,-,rfl,-,-,-,rfl⟩ | ⟨-,rfl,rfl,-⟩ | ⟨f,-,rfl,rfl⟩
    · refine ⟨h.2.1,fun x hx => h.2.2 x ?_⟩
      rw [writesOf_addWrite_self] at hx
      simpa using hx
    · trivial
    · trivial
  | _ => cases hp

/-- The update of `_handle_failure` writes the text of the failure it handles. -/
theorem reported_updateStatus {job : Uuid} {started row : JobRow} {status : JobStatus} {e : Exc}
    (ho : σ.writesOf (.worker w) = []) (hf : Failed σ job started e.str)
    (he : exec σ (.worker w) o (.updateStatus job status .started (some e.str)) out =
      some (.ok row,σ')) (es : List Event) :
    Reported (World.record σ' es) (σ'.writesOf (.worker w)) job started := by
  have hg := (Effect.grows (exec_effect he)).trans (grows_record es)
  obtain ⟨old,now,again,hws,-,-,rfl⟩ := writesOf_updateStatus ho he
  intro x y hu
  rw [hws] at hu
  obtain ⟨-,rfl⟩ := Write.updateJob.inj (List.mem_singleton.mp hu)
  exact ⟨e.str,hg.mem hf,by simp⟩

theorem knows_call (ho : opened p (σ.writesOf (.worker w))) (hh : Holds σ.db (stance p))
    (h : Knows σ (σ.writesOf (.worker w)) p) (hv : view p = .calls c k)
    (he : exec σ (.worker w) o c out = some (r,σ')) (es : List Event) :
    Knows (World.record σ' (entered (k r) ++ es)) (σ'.writesOf (.worker w)) (k r) := by
  have hg := Effect.grows (exec_effect he)
  cases p with
  | returned => cases hv
  | raised d e => cases hv
  | commit site =>
    cases hv
    cases r with
    | ok _ => cases site <;> first | exact h.1 | trivial
    | error e => cases site <;> first | exact h.1 | trivial
  | rollback site e =>
    cases hv
    cases r <;> cases site <;> exact h
  | close site e =>
    cases hv
    cases r <;> exact knows_leave es (h.grow hg)
  | lookup job =>
    cases hv
    rcases r with e | _ | row
    · trivial
    · trivial
    · dsimp only
      split <;> trivial
  | claim job =>
    cases hv
    rcases r with e | started
    · cases e <;> trivial
    · trivial
  | ackSuccess job started =>
    cases hv
    rcases r with e | _
    · exact knows_onFailure job started e es
    · trivial
  | enqueue job started =>
    cases hv
    rcases r with e | _
    · cases e <;> trivial
    · trivial
  | requeue | fail =>
    cases hv
    cases r with
    | error e => first | exact h.1 | trivial
    | ok row => exact ⟨h.1,reported_updateStatus ho h.2 he _⟩
  | ackPoison | ackDrop | nack | ackFailure => cases hv; cases r <;> trivial
  | _ => exact knows_processing rfl ho hh h hv he _

end Own

section Steps
variable {threshold : ℕ} {s s' : State} {l : Label}

structure Informed (s : State) : Prop where
  workers : ∀ w, KnowsWorker s.world (s.world.writesOf (.worker w)) (s.workers w)
  requests : ∀ r, KnowsRequest s.world (s.requests r)

theorem knows_start (σ : World) (ws : List Write) (body : Body) : Knows σ ws (start body) := by
  unfold start
  split <;> trivial

theorem KnowsWorker.grow {σ σ' : World} {ws : List Write} {x : Worker} (h : KnowsWorker σ ws x)
    (hg : Grows σ σ') : KnowsWorker σ' ws x := by
  cases x with
  | handling m p => exact Knows.grow h hg
  | _ => trivial

theorem KnowsStage.grow {σ σ' : World} {x : Stage} (h : KnowsStage σ x) (hg : Grows σ σ') :
    KnowsStage σ' x := by
  cases x with
  | checkObject dto document => exact Filed.grow h hg
  | checkDepth dto document => exact ⟨h.1.grow hg,hg.objects _ h.2⟩
  | insertJob dto document => exact ⟨h.1.grow hg,hg.objects _ h.2⟩
  | commitJob job => exact Sourced.grow h hg
  | _ => trivial

theorem KnowsRequest.grow {σ σ' : World} {x : Option Request} (h : KnowsRequest σ x)
    (hg : Grows σ σ') : KnowsRequest σ' x := by
  cases x with
  | none => trivial
  | some q => exact KnowsStage.grow h hg

theorem knowsStage_signing (σ : World) (rows : List ArtifactRow)
    (done : List (Uuid × ArtifactType × Url)) : KnowsStage σ (signing rows done) := by
  cases rows <;> trivial

theorem knowsStage_leave (σ : World) (sent : Bool) (e : Option Exc) :
    KnowsStage σ (leaveRequest sent e) := by
  cases sent <;> cases e <;> trivial

theorem knows_serve {σ σ' : World} {q : ℕ} {o : Oracle} {out : Outcome} {x : Stage} {c : Call}
    {k : Except Exc c.Resp → Stage} {r : Except Exc c.Resp} (h : KnowsStage σ x)
    (hv : viewStage threshold x = .calls c k)
    (he : exec σ (.request q) o c out = some (r,σ')) : KnowsStage σ' (k r) := by
  cases x with
  | finished => cases hv
  | crashed e => cases hv
  | findDocument dto =>
    cases hv
    rcases r with e | _ | document
    · trivial
    · trivial
    · obtain ⟨hrow,rfl⟩ := ok_getDocument he
      exact getDocument_eq_some.mp hrow
  | checkObject dto document =>
    cases hv
    rcases r with e | _ | _
    · trivial
    · trivial
    · obtain ⟨hb,rfl⟩ := ok_objectExists he
      exact ⟨h,hb⟩
  | checkDepth dto document =>
    cases hv
    rcases r with e | depth
    · trivial
    · obtain rfl : σ' = σ := by
        have hs := (exec_ok he).2
        cases hs
        rfl
      dsimp only
      split
      · trivial
      · exact h
  | insertJob dto document =>
    cases hv
    cases r with
    | error e => trivial
    | ok job =>
      have hg := Effect.grows (exec_effect he)
      obtain ⟨-,-,-,rfl,-⟩ := ok_createJob he
      exact ⟨document,h.1.grow hg,hg.objects _ h.2⟩
  | readDocument a id => cases hv; rcases r with e | _ | _ <;> trivial
  | listDocument a id => cases hv; rcases r with e | _ | _ <;> trivial
  | readJob a id => cases hv; rcases r with e | _ | _ <;> trivial
  | listRows a id =>
    cases hv
    cases r with
    | error e => trivial
    | ok rows => exact knowsStage_signing _ _ _
  | signDownloads artifact rest done =>
    cases hv
    cases r with
    | error e => trivial
    | ok url => exact knowsStage_signing _ _ _
  | close sent e =>
    cases hv
    cases r <;> exact knowsStage_leave _ _ _
  | _ =>
    cases hv
    cases r <;> trivial

theorem knowsStage_fresh {σ : World} {q : Request} (h : freshRequest q) : KnowsStage σ q.stage := by
  rcases h with h | ⟨route,h⟩
  · rw [h]
    trivial
  · rw [h]
    cases route <;> trivial

theorem Informed.idle (h : Informed s) (hg : Grows s.world s'.world) (hi : Idle s s') :
    Informed s' := by
  constructor
  · intro v
    rcases hi.workers v with hw | hw
    · have hv := (h.workers v).grow hg
      rw [hw]
      rcases hi.writes (.worker v) with hws | hws
      · rwa [hws]
      · rw [hws]
        cases hx : s.workers v with
        | handling m p =>
          rw [hx] at hv
          exact Knows.discard hv
        | _ => trivial
    · cases hx : s'.workers v with
      | handling m p =>
        rw [hx] at hw
        obtain rfl : p = start m.body := hw
        exact knows_start _ _ _
      | _ => trivial
  · intro r
    rcases hi.requests r with hr | ⟨q,hr,hf⟩
    · rw [hr]
      exact (h.requests r).grow hg
    · rw [hr]
      exact knowsStage_fresh hf

theorem Informed.step (h : Informed s) (ho : Opened s) (he : Engaged s)
    (hm : Move threshold s l s') : Informed s' := by
  have hgrow := move_grows hm
  cases l with
  | call w o out =>
    cases hm with
    | @call w m p c k o out r σ hw hv hx =>
      have hop := ho.workers w
      have hh := he.holds w
      have hk := h.workers w
      rw [hw] at hop hh hk
      refine ⟨?_,fun q => (h.requests q).grow hgrow⟩
      refine (Function.forall_update_iff s.workers
        (fun v y => KnowsWorker _ (World.writesOf σ (.worker v)) y)).mpr
        ⟨knows_call hop hh hk hv hx _,fun v hvw => ?_⟩
      rw [(exec_effect hx).writesOf_other (fun heq => hvw (Proc.worker.inj heq))]
      exact (h.workers v).grow hgrow
  | serve q o out =>
    cases hm with
    | @serve _ x c k _ _ r σ hq hv hx =>
      constructor
      · intro v
        have hw : World.writesOf σ (.worker v) = s.world.writesOf (.worker v) :=
          (exec_effect hx).writesOf_other (by simp)
        change KnowsWorker _ (World.writesOf σ (.worker v)) _
        rw [hw]
        exact (h.workers v).grow hgrow
      · have hk := h.requests q
        rw [hq] at hk
        exact (Function.forall_update_iff s.requests (fun _ y => KnowsRequest _ y)).mpr
          ⟨(knows_serve hk hv hx).grow (grows_record _),fun v _ => (h.requests v).grow hgrow⟩
  | _ => exact h.idle hgrow (move_idle hm (by simp) (by simp))

theorem informed_of_reachable (h : Reachable (step threshold) init s) : Informed s := by
  have h₀ : Informed init := ⟨fun _ => trivial,fun _ => trivial⟩
  refine h.invariant h₀ (fun s l s' hr hs hstep => ?_)
  exact hs.step (opened_of_reachable hr) (engaged_of_reachable hr) (step_move hstep)

theorem grows_trail {s₀ : State} {t : List (State × Label)} (h : Trail (step threshold) s₀ t s) :
    Grows s₀.world s.world := by
  induction h with
  | start => exact Grows.refl _
  | next _ hs ih => exact ih.trans (move_grows (step_move hs))

end Steps

end DocPipeline.Knowledge
