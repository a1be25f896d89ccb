import DocPipeline.Creation

/-!
# Reading back what was created

A client that holds a `201` response expects to find the row it names. The
job route commits its row before it answers. The document route leaves the
commit to the exit code of the session, which runs after the response has
left: until then the row is only pending, and it is lost when that commit
fails or the process dies.
-/

set_option autoImplicit false

namespace DocPipeline.ReadYourWrites
open DocPipeline.Identifiers DocPipeline.Records DocPipeline.Database DocPipeline.Calls
open DocPipeline.Consumer DocPipeline.Routes DocPipeline.System DocPipeline.Moves
open DocPipeline.Effects DocPipeline.Answers DocPipeline.Transactions DocPipeline.Pending
open DocPipeline.Reservations DocPipeline.Knowledge DocPipeline.Ledger DocPipeline.Exclusion
open DocPipeline.Publication DocPipeline.Creation LabelledRuns EffectProgram KeyedTable

def ReadableDocument (σ : World) (account : AccountId) (id : Uuid) : Prop :=
  ∃ row, σ.db.getDocument id account = some row

def ReadableJob (σ : World) (account : AccountId) (id : Uuid) : Prop :=
  ∃ row, σ.db.getJob id account = some row

def seeksDocument (account : AccountId) (id : Uuid) : Stage → Bool
  | .readDocument a i | .listDocument a i => a = account && i = id
  | .findDocument dto => dto.accountId = account && dto.documentId = id
  | _ => false

def seeksJob (account : AccountId) (id : Uuid) : Stage → Bool
  | .readJob a i => a = account && i = id
  | _ => false

def notFound : Stage → Bool
  | .rollback _ .documentNotFound | .rollback _ .jobNotFound => true
  | _ => false

def Finds (threshold : ℕ) (s : State) (seeks : Stage → Bool) : Prop :=
  ∀ r q o s', s.requests r = some q → seeks q.stage = true →
    step threshold s (.serve r o .ok) = some s' →
    ∃ q', s'.requests r = some q' ∧ notFound q'.stage = false

structure ReadsBack (threshold : ℕ) (s : State) : Prop where
  documents : ∀ a x url, .received a (.documentCreated x url) ∈ s.world.history →
    ReadableDocument s.world a x ∧ Finds threshold s (seeksDocument a x)
  jobs : ∀ a job, .received a (.jobCreated job) ∈ s.world.history →
    ReadableJob s.world a job.id ∧ Finds threshold s (seeksJob a job.id)

/-- The commit in the exit code of the session, when it takes effect. -/
def exitCommit : Stage × Outcome → Bool
  | (.commit _,out) => Outcome.took out
  | _ => false

def exitCommitted (r : ℕ) (t : List (State × Label)) : Bool := (servesOf r t).any exitCommit

/-- A client receives a new document before the exit code has committed it. -/
def hasty (t : List (State × Label)) (s : State) : Label → Bool
  | .receive r => match s.world.wire r with
    | some (.documentCreated _ _) => !exitCommitted r t
    | _ => false
  | _ => false

def patient : List (State × Label) → Bool
  | [] => true
  | (s,l)::t => patient t && !hasty t s l

def late : Stage → Bool
  | .rollback true _ | .close true _ | .finished | .crashed _ => true
  | _ => false

structure Orphan (s : State) (id : Uuid) : Prop where
  reserved : Reserved s.world id
  unclaimed : ∀ r, reserves (s.requests r) ≠ some id

def Fate (t : List (State × Label)) (s : State) (r : ℕ) (q : Request) (x : Uuid) (url : Url) :
    Prop :=
  q.stage = .commit (.documentCreated x url) ∨
    late q.stage = true ∧ (exitCommitted r t = true ∧ ReadableDocument s.world q.account x ∨
      exitCommitted r t = false ∧ Orphan s x)

section Lookups
variable {threshold : ℕ} {s : State} {a : AccountId} {x : Uuid}

theorem finds_document (h : ReadableDocument s.world a x) :
    Finds threshold s (seeksDocument a x) := by
  obtain ⟨row,hrow⟩ := h
  intro r q o s' hq hseek hstep
  have hm := step_move hstep
  cases hm with
  | @serve _ q' c k _ _ y σ hq' hv he =>
    obtain rfl := Option.some.inj (hq.symm.trans hq')
    refine ⟨_,setStage_self _ _ _ _,?_⟩
    obtain ⟨b,stage⟩ := q
    cases stage with
    | readDocument a' i | listDocument a' i =>
      obtain ⟨rfl,rfl⟩ : a' = a ∧ i = x := by simpa [seeksDocument] using hseek
      cases hv
      obtain ⟨rfl,-⟩ : _ = y ∧ _ = σ := by simpa [exec, serve, hrow] using he
      rfl
    | findDocument dto =>
      obtain ⟨rfl,rfl⟩ : dto.accountId = a ∧ dto.documentId = x := by
        simpa [seeksDocument] using hseek
      cases hv
      obtain ⟨rfl,-⟩ : _ = y ∧ _ = σ := by simpa [exec, serve, hrow] using he
      rfl
    | _ => cases hseek

theorem finds_job (h : ReadableJob s.world a x) : Finds threshold s (seeksJob a x) := by
  obtain ⟨row,hrow⟩ := h
  intro r q o s' hq hseek hstep
  have hm := step_move hstep
  cases hm with
  | @serve _ q' c k _ _ y σ hq' hv he =>
    obtain rfl := Option.some.inj (hq.symm.trans hq')
    refine ⟨_,setStage_self _ _ _ _,?_⟩
    obtain ⟨b,stage⟩ := q
    cases stage with
    | readJob a' i =>
      obtain ⟨rfl,rfl⟩ : a' = a ∧ i = x := by simpa [seeksJob] using hseek
      cases hv
      obtain ⟨rfl,-⟩ : _ = y ∧ _ = σ := by simpa [exec, serve, hrow] using he
      rfl
    | _ => cases hseek

end Lookups

section Wire
variable {threshold : ℕ} {σ σ' : World} {p : Proc} {c : Call} {s s' : State} {l : Label}

theorem effect_wire (he : Effect σ p c σ') (hc : ∀ y, c ≠ .respond y) : σ'.wire = σ.wire := by
  cases he with
  | ack => exact settle_wire σ p
  | nack => exact requeue_wire σ p
  | respond y => exact absurd rfl (hc y)
  | _ => rfl

theorem view_respond {p : Phase} {k : Except Exc Unit → Phase} {y : Response} :
    view p ≠ .calls (.respond y) k := by
  cases p <;> simp [view]

theorem viewStage_respond {x : Stage} {y : Response} {k : Except Exc Unit → Stage}
    (hv : viewStage threshold x = .calls (.respond y) k) :
    x = .respond y ∨ ∃ e, x = .respondError e ∧ y = .error e := by
  cases x with
  | respond response =>
    cases hv
    exact Or.inl rfl
  | respondError e =>
    cases hv
    exact Or.inr ⟨e,rfl,rfl⟩
  | _ => cases hv

theorem exec_respond {y : Response} {o : Oracle} {out : Outcome} {r : Except Exc Unit}
    (he : exec σ p o (.respond y) out = some (r,σ')) :
    (r = .ok () ∧ σ' = σ.send p y) ∨ σ' = σ := by
  cases out with
  | ok =>
    cases he
    exact Or.inl ⟨rfl,rfl⟩
  | raises f =>
    cases he
    exact Or.inr rfl
  | raisesAfter f => cases he

/-- A response comes onto the wire when its request answers. -/
theorem wire_step (hm : Move threshold s l s') {r : ℕ} {y : Response}
    (hw : s'.world.wire r = some y) :
    s.world.wire r = some y ∨
      (∃ e, y = .error e ∧ ∃ a, s.requests r = some ⟨a,.respondError e⟩) ∨
      ∃ a o out, l = .serve r o out ∧ s.requests r = some ⟨a,.respond y⟩ ∧
        s'.requests r = some ⟨a,.commit y⟩ := by
  cases hm with
  | @call v m p c k o out x σ hv hview he =>
    refine Or.inl ?_
    rwa [← effect_wire (exec_effect he) (fun z hz => ?_)]
    subst hz
    exact view_respond hview
  | @serve q z c k o out x σ hq hview he =>
    by_cases hc : ∃ response, c = .respond response
    · obtain ⟨response,rfl⟩ := hc
      rcases exec_respond he with ⟨rfl,rfl⟩ | rfl
      · by_cases hr : r = q
        · subst hr
          obtain rfl : response = y := by simpa [World.record, World.send] using hw
          obtain ⟨a,stage⟩ := z
          rcases viewStage_respond hview with hz | ⟨e,hz,rfl⟩
          · obtain rfl : stage = .respond response := hz
            cases hview
            exact Or.inr (Or.inr ⟨a,o,out,rfl,hq,setStage_self _ _ _ _⟩)
          · obtain rfl : stage = .respondError e := hz
            exact Or.inr (Or.inl ⟨e,rfl,a,hq⟩)
        · refine Or.inl ?_
          simpa [World.record, World.send, hr] using hw
      · exact Or.inl hw
    · refine Or.inl ?_
      rwa [← effect_wire (exec_effect he) (fun z hz => hc ⟨z,hz⟩)]
  | stop hw' => exact Or.inl (by simpa [State.endWorker, World.discard] using hw)
  | die hw' => exact Or.inl (by simpa [State.endWorker, World.discard] using hw)
  | lose hw' hu => exact Or.inl (by simpa using hw)
  | @receive q x response hq hwire =>
    by_cases hr : r = q
    · subst hr
      simp at hw
    · exact Or.inl (by simpa [hr] using hw)
  | _ => exact Or.inl hw

/-- A call adds the moves of its commit to the history and nothing else. -/
theorem event_effect (he : Effect σ p c σ') {e : Event} (hread : reading e = none)
    (h : e ∈ σ'.history) : e ∈ σ.history := by
  by_cases hc : c = .commit
  · subst hc
    cases he with
    | same => exact h
    | discard => exact h
    | commit =>
      rcases List.mem_append.mp h with h | h
      · obtain ⟨w,-,hw⟩ := List.mem_flatMap.mp (List.mem_reverse.mp h)
        cases w with
        | insertJob row =>
          obtain rfl := List.mem_singleton.mp hw
          cases hread
        | updateJob old new =>
          obtain rfl := List.mem_singleton.mp hw
          cases hread
        | _ => cases hw
      · exact h
  · rwa [he.history hc] at h

theorem not_received_entered (p : Phase) (a : AccountId) (y : Response) :
    .received a y ∉ entered p := by
  cases p <;> simp [entered]

theorem not_received_performed (p : Phase) (out : Outcome) (a : AccountId) (y : Response) :
    .received a y ∉ if Outcome.took out then performed p else [] := by
  split
  · cases p <;> simp [performed]
  · simp

theorem not_received_performedStage (x : Stage) (out : Outcome) (a : AccountId) (y : Response) :
    .received a y ∉ if Outcome.took out then performedStage x else [] := by
  split
  · cases x <;> simp [performedStage]
  · simp

/-- What a client receives was on the wire of a request of its own. -/
theorem received_step (hm : Move threshold s l s') {a : AccountId} {y : Response}
    (h : .received a y ∈ s'.world.history) :
    .received a y ∈ s.world.history ∨ ∃ r q, l = .receive r ∧ s.requests r = some q ∧
      q.account = a ∧ s.world.wire r = some y := by
  cases hm with
  | @call v m p c k o out x σ hv hview he =>
    refine Or.inl (event_effect (exec_effect he) rfl ?_)
    rcases List.mem_append.mp h with h | h
    · rcases List.mem_append.mp h with h | h
      · exact absurd h (not_received_entered _ _ _)
      · exact absurd h (not_received_performed _ _ _ _)
    · exact h
  | serve hq hview he =>
    refine Or.inl (event_effect (exec_effect he) rfl ?_)
    rcases List.mem_append.mp h with h | h
    · exact absurd h (not_received_performedStage _ _ _ _)
    · exact h
  | stop hw => exact Or.inl (by simpa [State.endWorker, World.discard] using h)
  | die hw => exact Or.inl (by simpa [State.endWorker, World.discard] using h)
  | lose hw hu => exact Or.inl (by simpa using h)
  | @receive q x response hq hw =>
    rcases List.mem_cons.mp h with h | h
    · obtain ⟨rfl,rfl⟩ := Event.received.inj h
      exact Or.inr ⟨q,x,rfl,hq,rfl,hw⟩
    · exact Or.inl h
  | _ => exact Or.inl h

end Wire

section Trails
variable {threshold : ℕ} {s s' : State} {l : Label} {t : List (State × Label)} {r : ℕ} {x : Uuid}

theorem late_leave (e : Option Exc) : late (leaveRequest true e) = true := by
  cases e <;> rfl

theorem late_serve {x : Stage} {c : Call} {k : Except Exc c.Resp → Stage} (h : late x = true)
    (hv : viewStage threshold x = .calls c k) (y : Except Exc c.Resp) : late (k y) = true := by
  cases x with
  | rollback sent e =>
    cases sent
    · cases h
    · cases hv
      cases y <;> rfl
  | close sent e =>
    cases sent
    · cases h
    · cases hv
      cases y <;> exact late_leave _
  | finished => cases hv
  | crashed e => cases hv
  | _ => cases h

theorem late_commit {response : Response} {c : Call} {k : Except Exc c.Resp → Stage}
    (hv : viewStage threshold (.commit response) = .calls c k) (y : Except Exc c.Resp) :
    late (k y) = true := by
  cases hv
  cases y <;> rfl

theorem reserves_late {x : Stage} {a : AccountId} (h : late x = true) :
    reserves (some ⟨a,x⟩) = none := by
  cases x with
  | insertDocument => cases h
  | _ => rfl

theorem exitCommitted_cons (x : State × Label) :
    exitCommitted r (x::t) = ((serveOf r x).any exitCommit || exitCommitted r t) := by
  unfold exitCommitted servesOf
  cases hx : serveOf r x with
  | none => rw [List.filterMap_cons_none hx, Option.any_none, Bool.false_or]
  | some y => rw [List.filterMap_cons_some hx, List.any_cons, Option.any_some]

theorem exitCommitted_other (h : ∀ o out, l ≠ .serve r o out) :
    exitCommitted r ((s,l)::t) = exitCommitted r t := by
  rw [exitCommitted_cons, serveOf_other h, Option.any_none, Bool.false_or]

theorem exitCommitted_late {q : Request} (hq : s.requests r = some q) (h : late q.stage = true)
    {o : Oracle} {out : Outcome} :
    exitCommitted r ((s,.serve r o out)::t) = exitCommitted r t := by
  rw [exitCommitted_cons, serveOf_self hq, Option.any_some]
  obtain ⟨a,stage⟩ := q
  cases stage with
  | commit response => cases h
  | _ => exact Bool.false_or _

theorem not_serve_of_requestAt (h : requestAt l ≠ some r) : ∀ o out, l ≠ .serve r o out := by
  rintro o out rfl
  exact h rfl

/-- After the exit code has committed, the request only closes its session. -/
theorem late_of_exitCommitted (ht : Trail (step threshold) init t s)
    (h : exitCommitted r t = true) : ∃ q, s.requests r = some q ∧ late q.stage = true := by
  induction ht with
  | start => cases h
  | @next t b b' l ht hstep ih =>
    have hm := step_move hstep
    by_cases hat : requestAt l = some r
    · cases hm with
      | arrive account route hr =>
        obtain rfl := Option.some.inj hat
        obtain ⟨q,hq,-⟩ := ih h
        rw [hr] at hq
        cases hq
      | @serve v z c k o out y σ hz hv he =>
        obtain rfl := Option.some.inj hat
        refine ⟨_,setStage_self _ _ _ _,?_⟩
        rw [exitCommitted_cons, serveOf_self hz, Option.any_some, Bool.or_eq_true] at h
        rcases h with h | h
        · obtain ⟨a,stage⟩ := z
          cases stage with
          | commit response => exact late_commit hv y
          | _ => cases h
        · obtain ⟨q,hq,hlate⟩ := ih h
          obtain rfl := Option.some.inj (hq.symm.trans hz)
          exact late_serve hlate hv y
      | abort hz =>
        obtain rfl := Option.some.inj hat
        exact ⟨_,setStage_self _ _ _ _,rfl⟩
      | _ => cases hat
    · rw [exitCommitted_other (not_serve_of_requestAt hat)] at h
      obtain ⟨q,hq,hlate⟩ := ih h
      exact ⟨q,by rw [frame_request hm hat, hq],hlate⟩

theorem Orphan.step (h : Orphan s x) (hm : Move threshold s l s') : Orphan s' x := by
  by_cases hcall : ∃ w o out, l = .call w o out
  · obtain ⟨w,o,out,rfl⟩ := hcall
    cases hm with
    | call hw hv he =>
      refine ⟨(h.reserved.effect (exec_effect he) (fun dto hd => ?_)).record _,h.unclaimed⟩
      exact absurd hd (view_createDocument hv dto)
  by_cases hserve : ∃ r o out, l = .serve r o out
  · obtain ⟨r,o,out,rfl⟩ := hserve
    cases hm with
    | @serve r z c k o out y σ hz hv he =>
      refine ⟨(h.reserved.effect (exec_effect he) (fun dto hd hid => ?_)).record _,fun v hv' => ?_⟩
      · have hno := h.unclaimed r
        rw [hz] at hno
        obtain ⟨a,stage⟩ := z
        cases stage <;> cases hv <;> cases hd
        exact hno (congrArg some hid)
      · by_cases hvr : v = r
        · subst hvr
          simp only [State.setStage, Function.update_self] at hv'
          exact (reserves_serve hv he hv').1 h.reserved.minted
        · simp only [State.setStage, Function.update_of_ne hvr] at hv'
          exact h.unclaimed v hv'
  have hi := move_idle hm (fun w o out hl => hcall ⟨w,o,out,hl⟩)
    (fun r o out hl => hserve ⟨r,o,out,hl⟩)
  refine ⟨h.reserved.congr hi.db (by rw [hi.minted]; exact h.reserved.minted) ?_,fun v hv => ?_⟩
  · intro q row hq
    rcases hi.writes q with he | he
    · rwa [he] at hq
    · simp [he] at hq
  · rcases hi.requests v with he | ⟨q,he,hf⟩
    · rw [he] at hv
      exact h.unclaimed v hv
    · rw [he, reserves_fresh hf] at hv
      cases hv

/-- A pending document that is dropped is never inserted again. -/
theorem orphan_of_pending (hs : Sound s) {row : DocumentRow}
    (hws : s.world.writesOf (.request r) = [.insertDocument row])
    (hdb : s'.world.db = s.world.db) (hm : s'.world.minted = s.world.minted)
    (hw : ∀ q, s'.world.writesOf q = if q = .request r then [] else s.world.writesOf q)
    (hq : ∀ v, reserves (s'.requests v) = reserves (s.requests v) ∨ reserves (s'.requests v) = none) :
    Orphan s' row.id := by
  have hmem : .insertDocument row ∈ s.world.writesOf (.request r) := by simp [hws]
  have hf := hs.guarded.fenced
  refine ⟨⟨?_,?_,fun q row' hq' => ?_⟩,fun v hv => ?_⟩
  · rw [hm]
    exact hf.pending _ _ hmem _ (by simp [newIds])
  · rw [hdb]
    exact hf.isolated.ready _ _ hmem
  · rw [hw q] at hq'
    split at hq'
    · simp at hq'
    · rename_i hne
      exact hf.isolated.apart q (.request r) hne _ hq' _ hmem
  · rcases hq v with he | he
    · rw [he] at hv
      exact (hs.guarded.reserved v row.id hv).pending _ row hmem rfl
    · rw [he] at hv
      cases hv

theorem ReadableDocument.step (hm : Move threshold s l s') {a : AccountId}
    (h : ReadableDocument s.world a x) : ReadableDocument s'.world a x := by
  obtain ⟨row,hrow⟩ := h
  obtain ⟨hget,hacc⟩ := getDocument_eq_some.mp hrow
  exact ⟨row,getDocument_eq_some.mpr ⟨(move_grows hm).documents x row hget,hacc⟩⟩

theorem ReadableJob.step (hs : Sound s) (hm : Move threshold s l s') {a : AccountId}
    (h : ReadableJob s.world a x) : ReadableJob s'.world a x := by
  obtain ⟨row,hrow⟩ := h
  obtain ⟨hget,hacc⟩ := getJob_eq_some.mp hrow
  obtain ⟨row',hget',rfl | hrep⟩ := step_evolve hs hm hget
  · exact ⟨row',getJob_eq_some.mpr ⟨hget',hacc⟩⟩
  · exact ⟨row',getJob_eq_some.mpr ⟨hget',hrep.account.trans hacc⟩⟩

/-- The commit of the exit code decides what becomes of the document. -/
theorem fate_commit (hs : Sound s) {a : AccountId} {url : Url} {o : Oracle} {out : Outcome}
    {y : Except Exc Unit} {σ : World} {next : Stage}
    (hq : s.requests r = some ⟨a,.commit (.documentCreated x url)⟩)
    (hnext : late next = true)
    (he : exec s.world (.request r) o .commit out = some (y,σ)) (es : List Event) :
    (Outcome.took out = true ∧ ReadableDocument (World.record σ es) a x) ∨
      (Outcome.took out = false ∧
        Orphan { s.setStage r a next with world := World.record σ es } x) := by
  have hop := hs.opened.requests r
  rw [hq] at hop
  obtain ⟨row,hws,hup,rfl,-⟩ := hop
  have hmem : .insertDocument row ∈ s.world.writesOf (.request r) := by simp [hws]
  have hiso := hs.guarded.fenced.isolated
  obtain ⟨htook,rfl⟩ | ⟨htook,rfl,-⟩ := exec_commit he
  · refine Or.inl ⟨htook,row,getDocument_eq_some.mpr ⟨?_,hup.1⟩⟩
    exact documents_inserted (hiso.own _) (hiso.ready _) hmem
  · refine Or.inr ⟨htook,orphan_of_pending hs hws rfl rfl (fun q => writesOf_discard q) ?_⟩
    intro v
    by_cases hvr : v = r
    · subst hvr
      rw [setStage_self]
      exact Or.inr (reserves_late hnext)
    · exact Or.inl (by simp [State.setStage, hvr])

/-- What has been decided stays as it is. -/
theorem decided_step (hm : Move threshold s l s') {a : AccountId}
    (hsame : exitCommitted r ((s,l)::t) = exitCommitted r t)
    (h : exitCommitted r t = true ∧ ReadableDocument s.world a x ∨
      exitCommitted r t = false ∧ Orphan s x) :
    exitCommitted r ((s,l)::t) = true ∧ ReadableDocument s'.world a x ∨
      exitCommitted r ((s,l)::t) = false ∧ Orphan s' x := by
  rw [hsame]
  rcases h with ⟨hc,h⟩ | ⟨hc,h⟩
  · exact Or.inl ⟨hc,h.step hm⟩
  · exact Or.inr ⟨hc,h.step hm⟩

theorem not_exitCommitted (ht : Trail (step threshold) init t s) {q : Request}
    (hq : s.requests r = some q) (hl : late q.stage = false) : exitCommitted r t = false := by
  rw [Bool.eq_false_iff]
  intro hc
  obtain ⟨q',hq',hlate⟩ := late_of_exitCommitted ht hc
  obtain rfl := Option.some.inj (hq.symm.trans hq')
  rw [hl] at hlate
  cases hlate

theorem fate_step (hs : Sound s) (ht : Trail (step threshold) init t s)
    (hm : Move threshold s l s') {q : Request} {url : Url} (hq : s.requests r = some q)
    (h : Fate t s r q x url) :
    ∃ q', s'.requests r = some q' ∧ q'.account = q.account ∧ Fate ((s,l)::t) s' r q' x url := by
  have hm' := hm
  obtain ⟨a,stage⟩ := q
  by_cases hat : requestAt l = some r
  · cases hm with
    | arrive account route hr =>
      obtain rfl := Option.some.inj hat
      rw [hr] at hq
      cases hq
    | @serve v z c k o out y σ hz hv he =>
      obtain rfl := Option.some.inj hat
      obtain rfl := Option.some.inj (hq.symm.trans hz)
      refine ⟨_,setStage_self _ _ _ _,rfl,Or.inr ?_⟩
      rcases h with h | ⟨hlate,h⟩
      · obtain rfl : stage = _ := h
        have hno := not_exitCommitted ht hq rfl
        have hlate := late_commit hv y
        cases hv
        refine ⟨hlate,?_⟩
        rw [exitCommitted_cons, serveOf_self hq, Option.any_some, hno, Bool.or_false]
        exact fate_commit hs hq hlate he _
      · exact ⟨late_serve hlate hv y,decided_step hm' (exitCommitted_late hq hlate) h⟩
    | @abort v z hz =>
      obtain rfl := Option.some.inj hat
      obtain rfl := Option.some.inj (hq.symm.trans hz)
      refine ⟨_,setStage_self _ _ _ _,rfl,Or.inr ⟨rfl,?_⟩⟩
      rcases h with h | ⟨hlate,h⟩
      · obtain rfl : stage = _ := h
        have hop := hs.opened.requests v
        rw [hq] at hop
        obtain ⟨row,hws,-,rfl,-⟩ := hop
        refine Or.inr ⟨?_,orphan_of_pending hs hws rfl rfl (fun q => writesOf_discard q) ?_⟩
        · rw [exitCommitted_other (by simp)]
          exact not_exitCommitted ht hq rfl
        · intro u
          by_cases huv : u = v
          · subst huv
            exact Or.inr (by rw [setStage_self]; rfl)
          · exact Or.inl (by simp [State.setStage, huv])
      · exact decided_step hm' (exitCommitted_other (by simp)) h
    | _ => cases hat
  · refine ⟨_,by rw [frame_request hm hat, hq],rfl,?_⟩
    rcases h with h | ⟨hlate,h⟩
    · exact Or.inl h
    · exact Or.inr ⟨hlate,
        decided_step hm (exitCommitted_other (not_serve_of_requestAt hat)) h⟩

/-- Every response that names a new document is on its way to an outcome. -/
theorem fate_of_trail (ht : Trail (step threshold) init t s) {url : Url}
    (hw : s.world.wire r = some (.documentCreated x url)) :
    ∃ q, s.requests r = some q ∧ Fate t s r q x url := by
  induction ht with
  | start => cases hw
  | @next t b b' l ht hstep ih =>
    have hm := step_move hstep
    have hs := sound_of_reachable ⟨t,ht⟩
    rcases wire_step hm hw with hw | ⟨e,he,-⟩ | ⟨a,o,out,rfl,hq,hq'⟩
    · obtain ⟨q,hq,hf⟩ := ih hw
      obtain ⟨q',hq',-,hf'⟩ := fate_step hs ht hm hq hf
      exact ⟨q',hq',hf'⟩
    · cases he
    · exact ⟨_,hq',Or.inl rfl⟩

theorem fate_readable (ht : Trail (step threshold) init t s) {q : Request} {url : Url}
    (hq : s.requests r = some q) (h : Fate t s r q x url) (hc : exitCommitted r t = true) :
    ReadableDocument s.world q.account x := by
  rcases h with h | ⟨-,⟨-,h⟩ | ⟨hno,-⟩⟩
  · rw [not_exitCommitted ht hq (by rw [h]; rfl)] at hc
    cases hc
  · exact h
  · rw [hno] at hc
    cases hc

theorem fate_missing (hs : Sound s) {q : Request} {url : Url} (hq : s.requests r = some q)
    (h : Fate t s r q x url) (hc : exitCommitted r t = false) :
    s.world.db.documents.get x = none := by
  rcases h with h | ⟨-,⟨hyes,-⟩ | ⟨-,h⟩⟩
  · have hop := hs.opened.requests r
    obtain ⟨a,stage⟩ := q
    obtain rfl : stage = _ := h
    rw [hq] at hop
    obtain ⟨row,hws,-,rfl,-⟩ := hop
    exact hs.guarded.fenced.isolated.ready (.request r) (.insertDocument row) (by rw [hws]; simp)
  · rw [hyes] at hc
    cases hc
  · exact h.reserved.fresh

end Trails

section Jobs
variable {threshold : ℕ} {s s' : State} {l : Label} {r : ℕ}

def vouches : Stage → Option Uuid
  | .enqueueJob job => some job.id
  | .respond (.jobCreated job) => some job.id
  | _ => none

structure Vouched (s : State) : Prop where
  requests : ∀ r q id, s.requests r = some q → vouches q.stage = some id →
    ReadableJob s.world q.account id
  wire : ∀ r job, s.world.wire r = some (.jobCreated job) →
    ∃ q, s.requests r = some q ∧ ReadableJob s.world q.account job.id

theorem vouches_start (a : AccountId) (route : Route) : vouches (startStage a route) = none := by
  cases route <;> rfl

/-- A request vouches for the row it has just committed. -/
theorem vouches_serve {x : Stage} {c : Call} {k : Except Exc c.Resp → Stage} {y : Except Exc c.Resp}
    {id : Uuid} (hv : viewStage threshold x = .calls c k) (h : vouches (k y) = some id) :
    vouches x = some id ∨ ∃ job, x = .commitJob job ∧ k y = .enqueueJob job ∧ job.id = id := by
  cases x with
  | commitJob job =>
    cases hv
    cases y with
    | error e => cases h
    | ok u => exact Or.inr ⟨job,rfl,rfl,Option.some.inj h⟩
  | enqueueJob job =>
    cases hv
    cases y with
    | error e => cases h
    | ok u => exact Or.inl h
  | checkObject dto document =>
    cases hv
    rcases y with e | _ | _ <;> cases h
  | checkDepth dto document =>
    cases hv
    rcases y with e | depth
    · cases h
    · dsimp only at h
      split at h <;> cases h
  | listRows a i =>
    cases hv
    rcases y with e | _ | _ <;> cases h
  | signDownloads artifact rest done =>
    cases hv
    rcases y with e | url
    · cases h
    · cases rest <;> cases h
  | close sent e =>
    cases hv
    cases y <;> cases sent <;> first | cases h | (cases e <;> cases h)
  | findDocument dto =>
    cases hv
    rcases y with e | _ | _ <;> cases h
  | readDocument a i =>
    cases hv
    rcases y with e | _ | _ <;> cases h
  | listDocument a i =>
    cases hv
    rcases y with e | _ | _ <;> cases h
  | readJob a i =>
    cases hv
    rcases y with e | _ | _ <;> cases h
  | finished => cases hv
  | crashed e => cases hv
  | _ =>
    cases hv
    cases y <;> cases h

theorem account_step (hm : Move threshold s l s') {q : Request} (hq : s.requests r = some q) :
    ∃ q', s'.requests r = some q' ∧ q'.account = q.account := by
  by_cases hat : requestAt l = some r
  · cases hm with
    | arrive account route hr =>
      obtain rfl := Option.some.inj hat
      rw [hr] at hq
      cases hq
    | serve hz hv he =>
      obtain rfl := Option.some.inj hat
      obtain rfl := Option.some.inj (hq.symm.trans hz)
      exact ⟨_,setStage_self _ _ _ _,rfl⟩
    | abort hz =>
      obtain rfl := Option.some.inj hat
      obtain rfl := Option.some.inj (hq.symm.trans hz)
      exact ⟨_,setStage_self _ _ _ _,rfl⟩
    | _ => cases hat
  · exact ⟨q,by rw [frame_request hm hat, hq],rfl⟩

theorem vouched_request (h : Vouched s) (hs : Sound s) (hm : Move threshold s l s') {q : Request}
    {id : Uuid} (hq : s'.requests r = some q) (hv : vouches q.stage = some id) :
    ReadableJob s'.world q.account id := by
  by_cases hat : requestAt l = some r
  · have hm' := hm
    cases hm with
    | arrive account route hr =>
      obtain rfl := Option.some.inj hat
      rw [setStage_self] at hq
      obtain rfl := Option.some.inj hq
      rw [vouches_start] at hv
      cases hv
    | @serve v z c k o out y σ hz hview he =>
      obtain rfl := Option.some.inj hat
      have hq' : some (Request.mk z.account (k y)) = some q := (setStage_self _ _ _ _).symm.trans hq
      obtain rfl := Option.some.inj hq'
      rcases vouches_serve hview hv with hv | ⟨job,hx,hk,rfl⟩
      · exact (h.requests v z id hz hv).step hs hm'
      · obtain ⟨a,stage⟩ := z
        obtain rfl : stage = _ := hx
        cases hview
        have hop := hs.opened.requests v
        rw [hz] at hop
        obtain ⟨hws,hacc,-⟩ := hop
        have hiso := hs.guarded.fenced.isolated
        obtain ⟨-,rfl⟩ | ⟨-,-,e,rfl⟩ := exec_commit he
        · refine ⟨job,getJob_eq_some.mpr ⟨?_,hacc⟩⟩
          exact jobs_inserted (hiso.own _) (hiso.ready _) (by rw [hws]; simp)
        · cases hk
    | abort hz =>
      obtain rfl := Option.some.inj hat
      have hq' := (setStage_self _ _ _ _).symm.trans hq
      obtain rfl := Option.some.inj hq'
      cases hv
    | _ => cases hat
  · rw [frame_request hm hat] at hq
    exact (h.requests r q id hq hv).step hs hm

theorem Vouched.step (h : Vouched s) (hs : Sound s) (hm : Move threshold s l s') : Vouched s' where
  requests r q id hq hv := vouched_request h hs hm hq hv
  wire r job hw := by
    rcases wire_step hm hw with hw | ⟨e,he,-⟩ | ⟨a,o,out,rfl,hq,hq'⟩
    · obtain ⟨q,hq,hread⟩ := h.wire r job hw
      obtain ⟨q',hq',hacc⟩ := account_step hm hq
      refine ⟨q',hq',?_⟩
      rw [hacc]
      exact hread.step hs hm
    · cases he
    · exact ⟨_,hq',(h.requests r _ _ hq rfl).step hs hm⟩

theorem vouched_of_reachable (h : Reachable (step threshold) init s) : Vouched s := by
  refine h.invariant ⟨?_,?_⟩ (fun s l s' hr hv hstep => ?_)
  · intro r q id hq
    cases hq
  · intro r job hw
    cases hw
  · exact hv.step (sound_of_reachable hr) (step_move hstep)

theorem readable_of_received (h : Reachable (step threshold) init s) {a : AccountId}
    {job : JobResponse} (hrec : .received a (.jobCreated job) ∈ s.world.history) :
    ReadableJob s.world a job.id := by
  obtain ⟨t,ht⟩ := h
  induction ht with
  | start => cases hrec
  | @next t b b' l ht hstep ih =>
    have hm := step_move hstep
    have hs := sound_of_reachable ⟨t,ht⟩
    rcases received_step hm hrec with hrec | ⟨r,q,rfl,hq,rfl,hw⟩
    · exact (ih hrec).step hs hm
    · obtain ⟨q',hq',hread⟩ := (vouched_of_reachable ⟨t,ht⟩).wire r job hw
      obtain rfl := Option.some.inj (hq.symm.trans hq')
      exact hread.step hs hm

end Jobs

section Main
variable {threshold : ℕ} {s s' : State} {l : Label} {t : List (State × Label)}

def Documented (s : State) : Prop :=
  ∀ a x url, .received a (.documentCreated x url) ∈ s.world.history → ReadableDocument s.world a x

/-- The lookups and the job route never break the law. -/
theorem readsBack_iff (h : Reachable (step threshold) init s) :
    ReadsBack threshold s ↔ Documented s := by
  constructor
  · intro hb a x url hrec
    exact (hb.documents a x url hrec).1
  · intro hd
    refine ⟨fun a x url hrec => ?_,fun a job hrec => ?_⟩
    · have hread := hd a x url hrec
      exact ⟨hread,finds_document hread⟩
    · have hread := readable_of_received h hrec
      exact ⟨hread,finds_job hread⟩

theorem hasty_iff {t : List (State × Label)} : hasty t s l = true ↔ ∃ r x url, l = .receive r ∧
    s.world.wire r = some (.documentCreated x url) ∧ exitCommitted r t = false := by
  cases l with
  | receive r =>
    simp only [hasty]
    split
    · rename_i x url hw
      simp [hw]
    · rename_i hw
      simp only [Label.receive.injEq, Bool.false_eq_true, false_iff]
      rintro ⟨v,x,url,rfl,hwire,-⟩
      exact hw x url hwire
  | _ => simp [hasty]

/-- One more step keeps the documents committed exactly when it is no receipt
that comes before the commit. -/
theorem documented_step (ht : Trail (step threshold) init t s)
    (hstep : step threshold s l = some s') (h : Documented s) :
    Documented s' ↔ hasty t s l = false := by
  have hm := step_move hstep
  have hs := sound_of_reachable ⟨t,ht⟩
  rw [← Bool.not_eq_true, hasty_iff]
  constructor
  · rintro hb ⟨r,x,url,rfl,hw,hc⟩
    obtain ⟨q,hq,hf⟩ := fate_of_trail ht hw
    have hnone := fate_missing hs hq hf hc
    cases hm with
    | receive hq' hw' =>
      obtain rfl := Option.some.inj (hw.symm.trans hw')
      obtain ⟨row,hrow⟩ := hb _ x url List.mem_cons_self
      have hget : s.world.db.documents.get x = some row := (getDocument_eq_some.mp hrow).1
      rw [hget] at hnone
      cases hnone
  · intro hok a x url hrec
    rcases received_step hm hrec with hrec | ⟨r,q,rfl,hq,rfl,hw⟩
    · exact (h a x url hrec).step hm
    · obtain ⟨q',hq',hf⟩ := fate_of_trail ht hw
      obtain rfl := Option.some.inj (hq.symm.trans hq')
      have hc : exitCommitted r t = true := by
        cases hc : exitCommitted r t with
        | true => rfl
        | false => exact absurd ⟨r,x,url,rfl,hw,hc⟩ hok
      exact (fate_readable ht hq hf hc).step hm

theorem documented_iff (ht : Trail (step threshold) init t s) :
    (∀ x ∈ Visited t s, Documented x) ↔ patient t = true := by
  induction ht with
  | start =>
    have hinit : Documented init := by
      intro a x url hrec
      cases hrec
    simpa [Visited, patient] using hinit
  | @next t b b' l ht hstep ih =>
    have hcons : (∀ x ∈ Visited ((b,l)::t) b', Documented x) ↔
        (∀ x ∈ Visited t b, Documented x) ∧ Documented b' := by
      simp [Visited, and_comm]
    have hpatient : patient ((b,l)::t) = true ↔ patient t = true ∧ hasty t b l = false := by
      simp [patient]
    rw [hcons, hpatient, ih]
    constructor
    · rintro ⟨hp,hb⟩
      exact ⟨hp,(documented_step ht hstep (ih.mpr hp b List.mem_cons_self)).mp hb⟩
    · rintro ⟨hp,hok⟩
      exact ⟨hp,(documented_step ht hstep (ih.mpr hp b List.mem_cons_self)).mpr hok⟩

/-- Read-your-writes holds throughout a run exactly when every response of
`POST /documents` is received after the commit of its session. -/
theorem read_your_writes_iff (ht : Trail (step threshold) init t s) :
    (∀ x ∈ Visited t s, ReadsBack threshold x) ↔ patient t = true := by
  rw [← documented_iff ht]
  constructor
  · intro h x hx
    exact (readsBack_iff (ht.visited x hx)).mp (h x hx)
  · intro h x hx
    exact (readsBack_iff (ht.visited x hx)).mpr (h x hx)

end Main

def hastyRun : List Label :=
  [.arrive 0 7 .createDocument,.serve 0 { uuid := 1 } .ok,.serve 0 {} .ok,.serve 0 {} .ok,
    .serve 0 {} .ok,.receive 0]

def vanishedRun : List Label :=
  hastyRun++[.serve 0 {} (.raises .mapped),.serve 0 {} .ok,.serve 0 {} .ok,
    .arrive 1 7 (.getDocument 1),.serve 1 {} .ok]

theorem created_document_vanishes :
    Reachable (step 100) init (after hastyRun) ∧ ¬ ReadsBack 100 (after hastyRun) ∧
      Reachable (step 100) init (after vanishedRun) ∧ ¬ ReadsBack 100 (after vanishedRun) ∧
      ((after vanishedRun).requests 1 matches some ⟨7,.rollback false .documentNotFound⟩) = true := by
  have hmissing : ∀ s : State, .received 7 (.documentCreated 1 (.put (rawKey 7 1))) ∈
      s.world.history → s.world.db.getDocument 1 7 = none → ¬ ReadsBack 100 s := by
    intro s hrec hnone hb
    obtain ⟨⟨row,hrow⟩,-⟩ := hb.documents 7 1 _ hrec
    rw [hnone] at hrow
    cases hrow
  refine ⟨reachable_of_run hastyRun (by decide +kernel),hmissing _ ?_ (by decide +kernel),
    reachable_of_run vanishedRun (by decide +kernel),hmissing _ ?_ (by decide +kernel),
    by decide +kernel⟩
  · decide +kernel
  · decide +kernel

def answeredRun : List Label := publishRun++[.serve 1 {} .ok,.receive 1]

theorem read_your_writes_iff_sample :
    (∀ x ∈ Visited (path (step 100) init answeredRun) (after answeredRun), ReadsBack 100 x) ∧
      ¬ ∀ x ∈ Visited (path (step 100) init hastyRun) (after hastyRun), ReadsBack 100 x := by
  have hp : Trail (step 100) init (path (step 100) init answeredRun) (after answeredRun) :=
    trail_path answeredRun (by decide +kernel)
  have hh : Trail (step 100) init (path (step 100) init hastyRun) (after hastyRun) :=
    trail_path hastyRun (by decide +kernel)
  refine ⟨(read_your_writes_iff hp).mpr (by decide +kernel),fun h => ?_⟩
  have hpatient : patient (path (step 100) init hastyRun) = false := by decide +kernel
  rw [(read_your_writes_iff hh).mp h] at hpatient
  cases hpatient

end DocPipeline.ReadYourWrites
