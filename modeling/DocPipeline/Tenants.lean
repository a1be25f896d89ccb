import DocPipeline.Attribution
import DocPipeline.Artifacts

/-!
# Accounts kept apart

What one account can learn from the API and from the object store is not
changed by the steps done for other accounts. Beside the owners of the open
transactions this rests on the two key formats, which are injective and
disjoint, and on the URLs that have been handed out: each names a key of the
account that received it.
-/

set_option autoImplicit false

namespace DocPipeline.Tenants
open DocPipeline.Identifiers DocPipeline.Records DocPipeline.Database DocPipeline.Calls
open DocPipeline.HandlerMachine
open DocPipeline.Consumer DocPipeline.Routes DocPipeline.System DocPipeline.Moves
open DocPipeline.Effects DocPipeline.Answers DocPipeline.Transactions DocPipeline.Pending
open DocPipeline.Reservations DocPipeline.Stances DocPipeline.Engagement DocPipeline.Knowledge
open DocPipeline.Ledger DocPipeline.Bookkeeping DocPipeline.Exclusion DocPipeline.Publication
open DocPipeline.Artifacts DocPipeline.ReadYourWrites DocPipeline.Attribution
open LabelledRuns EffectProgram KeyedTable

/-- A step done for account `a`. The moves of the broker are done for nobody. -/
def DoneFor (a : AccountId) (s : State) : Label → Prop
  | .call w _ _ | .stop w | .die w => ActsFor s a (.worker w)
  | .serve r _ _ | .abort r | .receive r => ActsFor s a (.request r)
  | .arrive _ account _ => account = a
  | .upload account _ _ => account = a
  | _ => False

instance (a : AccountId) (s : State) (l : Label) : Decidable (DoneFor a s l) :=
  match l with
  | .call w _ _ | .stop w | .die w => inferInstanceAs (Decidable (ActsFor s a (.worker w)))
  | .serve r _ _ | .abort r | .receive r => inferInstanceAs (Decidable (ActsFor s a (.request r)))
  | .arrive _ account _ => inferInstanceAs (Decidable (account = a))
  | .upload account _ _ => inferInstanceAs (Decidable (account = a))
  | .deliver _ _ | .begin _ | .loop _ | .lose _ | .duplicate _ | .inject _ => .isFalse id

section Answers
variable (threshold : ℕ) (σ : World) (r : ℕ) (o : Oracle) (a : AccountId)

/-- Every call of request `r` works or waits. -/
def alone (σ : World) (c : Call) : Option (Except Exc c.Resp × World) := serve σ (.request r) o c

def answer (route : Route) : Option Response :=
  (evaluate (alone r o) (request threshold a route) σ).bind fun x => x.2.wire r

def replied : Except Exc Response → Response
  | .ok response => response
  | .error e => .error e

/-- The client gets what the handler returns or raises. -/
theorem evaluate_dispatch (code : Code Response) :
    ((evaluate (alone r o) (attempt code dispatch) σ).bind fun x => x.2.wire r) =
      (evaluate (alone r o) code σ).map fun x => replied x.1 := by
  rw [evaluate_attempt]
  cases evaluate (alone r o) code σ with
  | none => rfl
  | some x =>
    obtain ⟨result,σ'⟩ := x
    cases result with
    | ok response =>
      have h : Function.update σ'.wire r (some response) r = some response :=
        Function.update_self _ _ _
      exact h
    | error e =>
      have h : Function.update σ'.wire r (some (.error e)) r = some (.error e) :=
        Function.update_self _ _ _
      exact h

variable {σ r o} in
theorem evaluate_await {α : Type} {c : Call} {v : c.Resp} {σ' : World} (f : c.Resp → Code α)
    (h : serve σ (.request r) o c = some (.ok v,σ')) :
    evaluate (alone r o) (await c >>= f) σ = evaluate (alone r o) (f v) σ' := by
  change Option.bind (serve σ (.request r) o c) _ = _
  rw [h]
  rfl

theorem answer_getDocument (id : Uuid) : answer threshold σ r o a (.getDocument id) =
    some (match σ.db.getDocument id a with
      | none => .error .documentNotFound
      | some document => .document document.id document.createdAt) := by
  refine (evaluate_dispatch σ r o (getDocument a id)).trans ?_
  rw [getDocument, evaluate_await _ rfl]
  cases σ.db.getDocument id a <;> rfl

theorem answer_getJob (id : Uuid) : answer threshold σ r o a (.getJob id) =
    some (match σ.db.getJob id a with
      | none => .error .jobNotFound
      | some job => .job (toResponse job)) := by
  refine (evaluate_dispatch σ r o (getJob a id)).trans ?_
  rw [getJob, evaluate_await _ rfl]
  cases σ.db.getJob id a <;> rfl

def listed (row : ArtifactRow) : Uuid × ArtifactType × Url :=
  (row.id,row.artifactType,.get row.objectKey)

theorem evaluate_signAll (rows : List ArtifactRow) (done : List (Uuid × ArtifactType × Url)) :
    evaluate (alone r o) (signAll rows done) σ =
      some (.ok (.artifacts (done++rows.map listed)),σ) := by
  induction rows generalizing done with
  | nil => simp [signAll, evaluate, pure_eq]
  | cons row rows ih =>
    rw [signAll, evaluate_await _ rfl, ih, List.append_assoc]
    rfl

theorem answer_listArtifacts (id : Uuid) : answer threshold σ r o a (.listArtifacts id) =
    some (match σ.db.getDocument id a with
      | none => .error .documentNotFound
      | some _ => .artifacts ((σ.db.listArtifacts id a).map listed)) := by
  refine (evaluate_dispatch σ r o (listArtifacts a id)).trans ?_
  rw [listArtifacts, evaluate_await _ rfl]
  cases σ.db.getDocument id a with
  | none => rfl
  | some document =>
    dsimp only
    rw [evaluate_await _ rfl, evaluate_signAll]
    rfl

/-- `POST /documents/{id}/process` reads the document, whether its upload is
there, the depth of the queue and the index. -/
theorem answer_processDocument (id : Uuid) (types : List ArtifactType) :
    answer threshold σ r o a (.processDocument id types) =
      match σ.db.getDocument id a with
      | none => some (.error .documentNotFound)
      | some document =>
        if (σ.objects document.objectKey).isSome then
          if threshold ≤ σ.ready.length then some (.error .backpressure)
          else if σ.held (.request r) (usesIndexEntry a id) then none
          else if σ.db.activeJobExists a id then some (.error .activeJobExists)
          else if o.uuid ∈ σ.minted then none
          else some (.jobCreated (toResponse
            (newJob ⟨a,id,types⟩ o.uuid o.maxAttempts o.now o.again)))
        else some (.error .documentNotUploaded) := by
  have hcode : answer threshold σ r o a (.processDocument id types) =
      (evaluate (alone r o) (findRest threshold ⟨a,id,types⟩) σ).map fun x => replied x.1 := by
    rw [← evaluate_dispatch, ← processDocument_eq]
    rfl
  rw [hcode, findRest, evaluate_await _ rfl]
  cases σ.db.getDocument id a with
  | none => rfl
  | some document =>
    dsimp only
    rw [objectRest, evaluate_await _ rfl]
    cases (σ.objects document.objectKey).isSome with
    | false => rfl
    | true =>
      simp only [if_true]
      rw [depthRest, evaluate_await _ rfl]
      by_cases hfull : threshold ≤ σ.ready.length
      · rw [if_pos hfull, if_pos hfull]
        rfl
      · rw [if_neg hfull, if_neg hfull]
        change Option.map _ (Option.bind (serve σ (.request r) o (.createJob ⟨a,id,types⟩)) _) = _
        simp only [serve]
        split_ifs <;> rfl

end Answers

def Owned (σ : World) (a : AccountId) (d : Uuid) : Prop :=
  ∃ row, σ.db.documents.get d = some row ∧ row.accountId = a

def ownArtifact (σ : World) (a : AccountId) (key : String) : Prop :=
  ∃ d, Owned σ a d ∧ key = artifactKey a d

def Backs (σ : World) (a : AccountId) : Response → Prop
  | .documentCreated x url => url = .put (rawKey a x)
  | .artifacts items => ∀ i ∈ items, ∃ key, i.2.2 = .get key ∧ ownArtifact σ a key
  | _ => True

def HandsOut (σ : World) (a : AccountId) : Stage → Prop
  | .signDownloads artifact rest done =>
    (∀ x ∈ artifact::rest, ownArtifact σ a x.objectKey) ∧ Backs σ a (.artifacts done)
  | .respond response => Backs σ a response
  | _ => True

section Handing
variable {threshold : ℕ} {s s' : State} {l : Label} {σ σ' : World} {a : AccountId}

theorem Owned.grow {d : Uuid} (h : Owned σ a d) (hg : Grows σ σ') : Owned σ' a d := by
  obtain ⟨row,hrow,hacc⟩ := h
  exact ⟨row,hg.documents d row hrow,hacc⟩

theorem ownArtifact_grow {key : String} (h : ownArtifact σ a key) (hg : Grows σ σ') :
    ownArtifact σ' a key := by
  obtain ⟨d,hd,rfl⟩ := h
  exact ⟨d,hd.grow hg,rfl⟩

theorem Backs.grow {y : Response} (h : Backs σ a y) (hg : Grows σ σ') : Backs σ' a y := by
  cases y with
  | artifacts items =>
    intro i hi
    obtain ⟨key,hkey,hown⟩ := h i hi
    exact ⟨key,hkey,ownArtifact_grow hown hg⟩
  | _ => exact h

theorem HandsOut.grow {x : Stage} (h : HandsOut σ a x) (hg : Grows σ σ') : HandsOut σ' a x := by
  cases x with
  | signDownloads artifact rest done =>
    exact ⟨fun x hx => ownArtifact_grow (h.1 x hx) hg,h.2.grow hg⟩
  | respond y => exact Backs.grow h hg
  | _ => trivial

theorem handsOut_signing {rows : List ArtifactRow} {done : List (Uuid × ArtifactType × Url)}
    (hr : ∀ x ∈ rows, ownArtifact σ a x.objectKey) (hd : Backs σ a (.artifacts done)) :
    HandsOut σ a (signing rows done) := by
  cases rows with
  | nil => exact hd
  | cons x rows => exact ⟨hr,hd⟩

theorem handsOut_leave (sent : Bool) (e : Option Exc) : HandsOut σ a (leaveRequest sent e) := by
  cases sent <;> cases e <;> trivial

theorem handsOut_start (route : Route) : HandsOut σ a (startStage a route) := by
  cases route <;> trivial

/-- The rows that the artifact route lists are those of its account. -/
theorem own_of_listArtifacts {log : List Event} {id : Uuid} (hb : Book σ.db log) {x : ArtifactRow}
    (hx : x ∈ σ.db.listArtifacts id a) : ownArtifact σ a x.objectKey := by
  obtain ⟨hmem,htest⟩ := List.mem_filter.mp hx
  obtain ⟨-,hany⟩ := Bool.and_eq_true_iff.mp htest
  obtain ⟨d,hd,hacc⟩ : ∃ d, σ.db.documents.get x.documentId = some d ∧ d.accountId = a := by
    simpa [Option.any_eq_true] using hany
  have hslot : x.slot = (x.documentId,.markdown) := by
    cases htype : x.artifactType
    rw [ArtifactRow.slot, htype]
  have hget := Table.get_of_mem hmem
  rw [hslot] at hget
  obtain ⟨document,hdoc,hkey⟩ := book_artifactKey hb hget
  obtain rfl := Option.some.inj (hd.symm.trans hdoc)
  exact ⟨x.documentId,⟨d,hd,hacc⟩,by rw [hkey, hacc]⟩

/-- One call of a request for `a`. -/
theorem handsOut_serve {log : List Event} {x : Stage} {c : Call} {k : Except Exc c.Resp → Stage}
    {o : Oracle} {out : Outcome} {y : Except Exc c.Resp} {q : ℕ} (hb : Book σ.db log)
    (hop : openedStage a x (σ.writesOf (.request q))) (h : HandsOut σ a x)
    (hv : viewStage threshold x = .calls c k) (he : exec σ (.request q) o c out = some (y,σ')) :
    HandsOut σ a (k y) := by
  cases x with
  | signUpload document =>
    cases hv
    rcases y with e | url
    · trivial
    · obtain ⟨-,hs⟩ := exec_ok he
      obtain ⟨rfl,-⟩ : _ = url ∧ _ = σ' := by simpa [serve] using hs
      obtain ⟨-,hacc,hkey⟩ := hop
      rw [hkey]
      rfl
  | listRows a' id =>
    cases hv
    obtain ⟨-,rfl⟩ := hop
    rcases y with e | rows
    · trivial
    · obtain ⟨-,hs⟩ := exec_ok he
      obtain ⟨rfl,-⟩ : _ = rows ∧ _ = σ' := by simpa [serve] using hs
      exact handsOut_signing (fun x hx => own_of_listArtifacts hb hx) (by simp [Backs])
  | signDownloads artifact rest done =>
    cases hv
    rcases y with e | url
    · trivial
    · obtain ⟨-,hs⟩ := exec_ok he
      obtain ⟨rfl,-⟩ : _ = url ∧ _ = σ' := by simpa [serve] using hs
      refine handsOut_signing (fun x hx => h.1 x (List.mem_cons_of_mem _ hx)) (fun i hi => ?_)
      rcases List.mem_append.mp hi with hi | hi
      · exact h.2 i hi
      · obtain rfl := List.mem_singleton.mp hi
        exact ⟨_,rfl,h.1 artifact List.mem_cons_self⟩
  | checkObject dto document =>
    cases hv
    rcases y with e | _ | _ <;> trivial
  | checkDepth dto document =>
    cases hv
    rcases y with e | depth
    · trivial
    · dsimp only
      split <;> trivial
  | findDocument dto =>
    cases hv
    rcases y with e | _ | _ <;> trivial
  | readDocument a' i =>
    cases hv
    rcases y with e | _ | _ <;> trivial
  | listDocument a' i =>
    cases hv
    rcases y with e | _ | _ <;> trivial
  | readJob a' i =>
    cases hv
    rcases y with e | _ | _ <;> trivial
  | close sent e =>
    cases hv
    cases y <;> exact handsOut_leave _ _
  | finished => cases hv
  | crashed e => cases hv
  | _ =>
    cases hv
    cases y <;> trivial

structure Handing (s : State) : Prop where
  requests : ∀ r q, s.requests r = some q → HandsOut s.world q.account q.stage
  wire : ∀ r y, s.world.wire r = some y →
    (∃ e, y = .error e) ∨ ∃ q, s.requests r = some q ∧ Backs s.world q.account y
  history : ∀ a y, .received a y ∈ s.world.history → Backs s.world a y

theorem handing_request (h : Handing s) (hs : Sound s) (hb : Book s.world.db s.world.history)
    (hm : Move threshold s l s') {r : ℕ} {q : Request} (hq : s'.requests r = some q) :
    HandsOut s.world q.account q.stage := by
  by_cases hat : requestAt l = some r
  · cases hm with
    | arrive account route hr =>
      obtain rfl := Option.some.inj hat
      obtain rfl := Option.some.inj ((setStage_self _ _ _ _).symm.trans hq)
      exact handsOut_start route
    | @serve v z c k o out y σ hz hv he =>
      obtain rfl := Option.some.inj hat
      obtain rfl := Option.some.inj ((setStage_self _ _ _ _).symm.trans hq)
      have hop := hs.opened.requests v
      rw [hz] at hop
      exact handsOut_serve hb hop (h.requests v z hz) hv he
    | abort hz =>
      obtain rfl := Option.some.inj hat
      obtain rfl := Option.some.inj ((setStage_self _ _ _ _).symm.trans hq)
      trivial
    | _ => cases hat
  · rw [frame_request hm hat] at hq
    exact h.requests r q hq

theorem Handing.step (h : Handing s) (hs : Sound s) (hb : Book s.world.db s.world.history)
    (hm : Move threshold s l s') : Handing s' where
  requests r q hq := (handing_request h hs hb hm hq).grow (move_grows hm)
  wire r y hw := by
    rcases wire_step hm hw with hw | ⟨e,he,-⟩ | ⟨a,o,out,rfl,hq,hq'⟩
    · rcases h.wire r y hw with he | ⟨q,hq,hback⟩
      · exact Or.inl he
      · obtain ⟨q',hq',hacc⟩ := account_step hm hq
        refine Or.inr ⟨q',hq',?_⟩
        rw [hacc]
        exact hback.grow (move_grows hm)
    · exact Or.inl ⟨e,he⟩
    · exact Or.inr ⟨_,hq',Backs.grow (h.requests r _ hq) (move_grows hm)⟩
  history a y hrec := by
    rcases received_step hm hrec with hrec | ⟨r,q,rfl,hq,rfl,hw⟩
    · exact (h.history a y hrec).grow (move_grows hm)
    · rcases h.wire r y hw with ⟨e,rfl⟩ | ⟨q',hq',hback⟩
      · trivial
      · obtain rfl := Option.some.inj (hq.symm.trans hq')
        exact hback.grow (move_grows hm)

theorem handing_of_reachable (h : Reachable (step threshold) init s) : Handing s := by
  refine h.invariant ⟨?_,?_,?_⟩ (fun s l s' hr hh hstep => ?_)
  · intro r q hq
    cases hq
  · intro r y hw
    cases hw
  · intro a y hrec
    cases hrec
  · exact hh.step (sound_of_reachable hr) (book_of_reachable hr) (step_move hstep)

end Handing

section Isolation
variable {threshold : ℕ} {s s' : State} {l : Label} {a : AccountId}

structure Agree (a : AccountId) (σ σ' : World) : Prop where
  tables : SameTables a σ.db σ'.db
  held : ∀ p d, σ'.held p (usesIndexEntry a d) = σ.held p (usesIndexEntry a d)
  raw : ∀ d, σ'.objects (rawKey a d) = σ.objects (rawKey a d)
  artifacts : ∀ d, σ'.objects (artifactKey a d) = σ.objects (artifactKey a d)

theorem Agree.refl (a : AccountId) (σ : World) : Agree a σ σ :=
  ⟨.refl _,fun _ _ => rfl,fun _ => rfl,fun _ => rfl⟩

theorem Agree.trans {σ σ' σ'' : World} (h : Agree a σ σ') (h' : Agree a σ' σ'') :
    Agree a σ σ'' where
  tables := h.tables.trans h'.tables
  held p d := (h'.held p d).trans (h.held p d)
  raw d := (h'.raw d).trans (h.raw d)
  artifacts d := (h'.artifacts d).trans (h.artifacts d)

theorem not_actor_of_not_doneFor (hl : ¬ DoneFor a s l) (p : Proc) (hp : actor l = some p) :
    ¬ ActsFor s a p := by
  intro hacts
  cases l <;> cases hp <;> exact hl hacts

theorem view_putObject {p : Phase} {key : String} {content : Bytes} {k : Except Exc Unit → Phase}
    (hv : view p = .calls (.putObject key content) k) :
    ∃ job started row document markdown, p = .processPut job started row document markdown ∧
      key = artifactKey row.accountId document.id := by
  cases p with
  | processPut job started row document markdown =>
    cases hv
    exact ⟨job,started,row,document,markdown,rfl,rfl⟩
  | _ => cases hv

theorem viewStage_putObject {x : Stage} {key : String} {content : Bytes}
    {k : Except Exc Unit → Stage} : viewStage threshold x ≠ .calls (.putObject key content) k := by
  cases x <;> simp [viewStage]

/-- The key a worker puts is one of the account it works for. -/
theorem put_key (hs : Sound s) (ha : Addressed s) {v : ℕ} {m : Message} {p : Phase} {key : String}
    {content : Bytes} {k : Except Exc Unit → Phase} (hv : s.workers v = .handling m p)
    (hview : view p = .calls (.putObject key content) k) :
    ∃ b d, ActsFor s b (.worker v) ∧ key = artifactKey b d := by
  obtain ⟨job,started,row,document,markdown,rfl,rfl⟩ := view_putObject hview
  have hk := hs.informed.workers v
  have hh := hs.engaged.holds v
  rw [hv] at hk hh
  obtain ⟨rfl,-⟩ := hk
  have hmsg : messageOf (s.workers v) = some m := by rw [hv]; rfl
  have hjob := ha.jobs v m job hmsg (by rw [hv]; rfl)
  exact ⟨row.accountId,document.id,⟨m,job,row,hmsg,hjob,hh.2,rfl⟩,rfl⟩

theorem handed_iff {history : List Event} {url : Url} : handed history a url = true ↔
    ∃ y, .received a y ∈ history ∧ url ∈ y.urls := by
  simp only [handed, List.any_eq_true]
  constructor
  · rintro ⟨e,he,htest⟩
    cases e with
    | received account response =>
      simp only [Bool.and_eq_true, decide_eq_true_eq, List.contains_iff_mem] at htest
      obtain ⟨rfl,hmem⟩ := htest
      exact ⟨response,he,hmem⟩
    | _ => cases htest
  · rintro ⟨y,hy,hmem⟩
    exact ⟨_,hy,by simpa using hmem⟩

/-- Every URL that has been handed out names a key of its receiver. -/
theorem handed_key (h : Handing s) {url : Url} (hu : handed s.world.history a url = true) :
    (∃ d, .received a (.documentCreated d url) ∈ s.world.history ∧ url = .put (rawKey a d)) ∨
      ∃ d, Owned s.world a d ∧ url = .get (artifactKey a d) := by
  obtain ⟨y,hy,hmem⟩ := handed_iff.mp hu
  have hback := h.history a y hy
  cases y with
  | documentCreated x u =>
    obtain rfl : url = u := by simpa [Response.urls] using hmem
    exact Or.inl ⟨x,hy,hback⟩
  | artifacts items =>
    obtain ⟨i,hi,rfl⟩ := List.mem_map.mp hmem
    obtain ⟨key,hkey,d,hd,rfl⟩ := hback i hi
    exact Or.inr ⟨d,hd,hkey⟩
  | _ => simp [Response.urls] at hmem

/-- An object that a step done for others writes has a key of the others. -/
theorem objects_step (hs : Sound s) (had : Addressed s) (hh : Handing s)
    (hm : Move threshold s l s') (hl : ¬ DoneFor a s l) {key : String}
    (hkey : ∀ b d, b ≠ a → key ≠ rawKey b d ∧ key ≠ artifactKey b d) :
    s'.world.objects key = s.world.objects key := by
  cases hm with
  | @call v m p c k o out y σ hv hview he =>
    have heff := exec_effect he
    by_cases hc : ∃ key content, c = .putObject key content
    · obtain ⟨key',content,rfl⟩ := hc
      obtain ⟨b,d,hb,rfl⟩ := put_key hs had hv hview
      have hne : b ≠ a := by
        rintro rfl
        exact hl hb
      cases heff with
      | same => rfl
      | discard c hc => cases hc
      | putObject => exact Function.update_of_ne (hkey b d hne).2 _ _
    · have hobj := heff.objects (fun key content hput => hc ⟨key,content,hput⟩)
      exact congrFun hobj key
  | @serve q x c k o out y σ hq hview he =>
    have hobj := (exec_effect he).objects (fun key content hput => by
      subst hput
      exact viewStage_putObject hview)
    exact congrFun hobj key
  | stop hv => simp [State.endWorker, World.discard]
  | die hv => simp [State.endWorker, World.discard]
  | lose hv hu => simp
  | @upload account key' content hu =>
    rcases handed_key hh hu with ⟨d,-,he⟩ | ⟨d,-,he⟩
    · obtain rfl := Url.put.inj he
      exact Function.update_of_ne (hkey account d hl).1 _ _
    · cases he
  | _ => rfl

theorem agree_step (h : Attributed s) (hs : Sound s) (had : Addressed s) (hh : Handing s)
    (hm : Move threshold s l s') (hl : ¬ DoneFor a s l) : Agree a s.world s'.world where
  tables := sameTables_step h hs hm (not_actor_of_not_doneFor hl)
  held := held_step h hs had hm (not_actor_of_not_doneFor hl)
  raw d := by
    refine objects_step hs had hh hm hl (fun b e hne => ⟨fun he => ?_,rawKey_ne_artifactKey a b d e⟩)
    exact hne (rawKey_injective he).1.symm
  artifacts d := by
    refine objects_step hs had hh hm hl (fun b e hne => ⟨fun he => ?_,fun he => ?_⟩)
    · exact rawKey_ne_artifactKey b a e d he.symm
    · exact hne (artifactKey_injective he).1.symm

def Ongoing (a : AccountId) (s s' : State) : Prop :=
  ∀ r q, s.requests r = some q → q.account = a →
    s'.requests r = some q ∧ s'.world.wire r = s.world.wire r

theorem wire_kept (hm : Move threshold s l s') {r : ℕ} (hat : requestAt l ≠ some r)
    (hrec : l ≠ .receive r) : s'.world.wire r = s.world.wire r := by
  cases hm with
  | @call v m p c k o out y σ hv hview he =>
    refine congrFun (effect_wire (exec_effect he) (fun z hz => ?_)) r
    subst hz
    exact view_respond hview
  | @serve q x c k o out y σ hq hview he =>
    have hne : r ≠ q := fun hr => hat (by rw [hr]; rfl)
    by_cases hc : ∃ response, c = .respond response
    · obtain ⟨response,rfl⟩ := hc
      rcases exec_respond he with ⟨-,rfl⟩ | rfl
      · simp [World.record, World.send, hne]
      · rfl
    · exact congrFun (effect_wire (exec_effect he) (fun z hz => hc ⟨z,hz⟩)) r
  | stop hv => simp [State.endWorker, World.discard]
  | die hv => simp [State.endWorker, World.discard]
  | lose hv hu => simp
  | @receive q x response hq hw =>
    have hne : r ≠ q := fun hr => hrec (by rw [hr])
    simp [hne]
  | _ => rfl

theorem ongoing_step (hm : Move threshold s l s') (hl : ¬ DoneFor a s l) : Ongoing a s s' := by
  intro r q hq hacc
  have hacts : ActsFor s a (.request r) := ⟨q,hq,hacc⟩
  have hat : requestAt l ≠ some r := by
    intro hat
    cases hm with
    | arrive account route hr =>
      obtain rfl := Option.some.inj hat
      rw [hr] at hq
      cases hq
    | serve hz hv he =>
      obtain rfl := Option.some.inj hat
      exact hl hacts
    | abort hz =>
      obtain rfl := Option.some.inj hat
      exact hl hacts
    | _ => cases hat
  refine ⟨by rw [frame_request hm hat, hq],wire_kept hm hat ?_⟩
  rintro rfl
  exact hl hacts

/-- Along every run without a step for `a`, what `a` can see stays. -/
theorem agree_trail {t : List (State × Label)} (hr : Reachable (step threshold) init s)
    (ht : Trail (step threshold) s t s') (hl : ∀ x ∈ t, ¬ DoneFor a x.1 x.2) :
    Agree a s.world s'.world ∧ Ongoing a s s' := by
  have h₀ : Agree a s.world s.world ∧ Ongoing a s s :=
    ⟨.refl a _,fun r q hq _ => ⟨hq,rfl⟩⟩
  refine Trail.onward (fun s l => ¬ DoneFor a s l) (I := fun x => Agree a s.world x.world ∧
    Ongoing a s x) hr h₀ (fun b l b' hb hI hok hstep => ?_) ht hl
  have hm := step_move hstep
  have hagree := agree_step (attributed_of_reachable hb) (sound_of_reachable hb)
    (addressed_of_reachable hb) (handing_of_reachable hb) hm hok
  refine ⟨hI.1.trans hagree,fun r q hq hacc => ?_⟩
  obtain ⟨hq',hwire⟩ := hI.2 r q hq hacc
  obtain ⟨hq'',hwire'⟩ := ongoing_step hm hok r q hq' hacc
  exact ⟨hq'',hwire'.trans hwire⟩

theorem activeJobExists_getJob (db : Tables) (d : Uuid) : db.activeJobExists a d = true ↔
    ∃ id row, db.getJob id a = some row ∧ row.status.active = true ∧ row.documentId = d := by
  rw [activeJobExists_iff]
  constructor
  · rintro ⟨row,hmem,hact,hacc,hdoc⟩
    exact ⟨row.id,row,getJob_eq_some.mpr ⟨Table.get_of_mem hmem,hacc⟩,hact,hdoc⟩
  · rintro ⟨id,row,hrow,hact,hdoc⟩
    obtain ⟨hget,hacc⟩ := getJob_eq_some.mp hrow
    exact ⟨row,Table.mem_of_get hget,hact,hacc,hdoc⟩

theorem Agree.index {σ σ' : World} (h : Agree a σ σ') (d : Uuid) :
    σ'.db.activeJobExists a d = σ.db.activeJobExists a d := by
  rw [Bool.eq_iff_iff, activeJobExists_getJob, activeJobExists_getJob]
  simp only [h.tables.jobs]

/-- The upload of a document of `a`. -/
theorem Agree.uploaded {σ σ' : World} {log : List Event} (h : Agree a σ σ') (hb : Book σ.db log)
    {id : Uuid} {document : DocumentRow} (hd : σ.db.getDocument id a = some document) :
    σ'.objects document.objectKey = σ.objects document.objectKey := by
  obtain ⟨hget,rfl⟩ := getDocument_eq_some.mp hd
  rw [book_rawKey hb hget]
  exact h.raw id

end Isolation

def reads : Route → Bool
  | .getDocument _ | .listArtifacts _ | .getJob _ => true
  | _ => false

/-- Nothing that `a` gets from the system differs between two states, up to
the depth of the shared queue. -/
structure Undisturbed (threshold : ℕ) (a : AccountId) (s s' : State) : Prop where
  reads : ∀ r o route, reads route = true →
    answer threshold s'.world r o a route = answer threshold s.world r o a route
  process : ∀ r o d types, o.uuid ∉ s.world.minted → o.uuid ∉ s'.world.minted →
    (threshold ≤ s'.world.ready.length ↔ threshold ≤ s.world.ready.length) →
    answer threshold s'.world r o a (.processDocument d types) =
      answer threshold s.world r o a (.processDocument d types)
  raw : ∀ d, s'.world.objects (rawKey a d) = s.world.objects (rawKey a d)
  artifacts : ∀ d, s'.world.objects (artifactKey a d) = s.world.objects (artifactKey a d)
  requests : Ongoing a s s'
  calls : ∀ r q c k o, s.requests r = some q → q.account = a →
    viewStage threshold q.stage = .calls c k → c ≠ .queueDepth → o.uuid ∉ s.world.minted →
    o.uuid ∉ s'.world.minted →
    (serve s'.world (.request r) o c).map Prod.fst = (serve s.world (.request r) o c).map Prod.fst

section Main
variable {threshold : ℕ} {s s' : State} {a : AccountId}

theorem undisturbed_calls (hs : Sound s) (hb : Book s.world.db s.world.history)
    (h : Agree a s.world s'.world) {r : ℕ} {q : Request} {c : Call} {k : Except Exc c.Resp → Stage}
    {o : Oracle} (hq : s.requests r = some q) (hacc : q.account = a)
    (hv : viewStage threshold q.stage = .calls c k) (hc : c ≠ .queueDepth)
    (hf : o.uuid ∉ s.world.minted) (hf' : o.uuid ∉ s'.world.minted) :
    (serve s'.world (.request r) o c).map Prod.fst =
      (serve s.world (.request r) o c).map Prod.fst := by
  have hop := hs.opened.requests r
  have hk := hs.informed.requests r
  rw [hq] at hop hk
  obtain ⟨account,stage⟩ := q
  obtain rfl : account = a := hacc
  cases stage with
  | mintDocument a' =>
    cases hv
    simp [serve, hf, hf']
  | findDocument | readDocument | listDocument =>
    cases hv
    obtain ⟨-,rfl⟩ := hop
    simp [serve, h.tables.documents]
  | listRows a' i =>
    cases hv
    obtain ⟨-,rfl⟩ := hop
    simp [serve, h.tables.artifacts]
  | readJob a' i =>
    cases hv
    obtain ⟨-,rfl⟩ := hop
    simp [serve, h.tables.jobs]
  | checkObject dto document =>
    cases hv
    obtain ⟨-,rfl⟩ := hop
    have hd := getDocument_eq_some.mpr hk
    simp [serve, h.uploaded hb hd]
  | checkDepth dto document =>
    cases hv
    exact absurd rfl hc
  | insertJob dto document =>
    cases hv
    obtain ⟨-,rfl⟩ := hop
    simp only [serve, h.held, h.index, hf, hf', if_false]
    split
    · rfl
    · split <;> rfl
  | finished => cases hv
  | crashed e => cases hv
  | _ =>
    cases hv
    rfl

theorem undisturbed_of_agree (hs : Sound s) (hb : Book s.world.db s.world.history)
    (h : Agree a s.world s'.world) (hp : Ongoing a s s') : Undisturbed threshold a s s' where
  reads r o route hroute := by
    cases route with
    | getDocument id => rw [answer_getDocument, answer_getDocument, h.tables.documents]
    | getJob id => rw [answer_getJob, answer_getJob, h.tables.jobs]
    | listArtifacts id =>
      rw [answer_listArtifacts, answer_listArtifacts, h.tables.documents, h.tables.artifacts]
    | _ => cases hroute
  process r o d types hf hf' hdepth := by
    rw [answer_processDocument, answer_processDocument, h.tables.documents]
    cases hd : s.world.db.getDocument d a with
    | none => rfl
    | some document => simp only [h.uploaded hb hd, h.held, h.index, hf, hf', hdepth]
  raw := h.raw
  artifacts := h.artifacts
  requests := hp
  calls r q c k o hq hacc hv hc hf hf' := undisturbed_calls hs hb h hq hacc hv hc hf hf'

/-- Tenant isolation in one state: later steps for others do not disturb an
account, and the URLs it has received are its own. -/
structure Isolated (threshold : ℕ) (s : State) : Prop where
  noninterference : ∀ a t s', Trail (step threshold) s t s' →
    (∀ x ∈ t, ¬ DoneFor a x.1 x.2) → Undisturbed threshold a s s'
  urls : ∀ a url, handed s.world.history a url = true → ∃ d, Owned s.world a d ∧
    (url = .put (rawKey a d) ∨ url = .get (artifactKey a d))
  apart : ∀ a b u v, handed s.world.history a u = true → handed s.world.history b v = true →
    u.key = v.key → a = b

theorem handed_apart (h : Handing s) {b : AccountId} {u v : Url}
    (hu : handed s.world.history a u = true) (hv : handed s.world.history b v = true)
    (hkey : u.key = v.key) : a = b := by
  rcases handed_key h hu with ⟨d,-,rfl⟩ | ⟨d,-,rfl⟩ <;>
    rcases handed_key h hv with ⟨e,-,rfl⟩ | ⟨e,-,rfl⟩
  · exact (rawKey_injective hkey).1
  · exact absurd hkey (rawKey_ne_artifactKey a b d e)
  · exact absurd hkey.symm (rawKey_ne_artifactKey b a e d)
  · exact (artifactKey_injective hkey).1

/-- Only the commit of a new document is missing for isolation. -/
theorem isolated_iff (h : Reachable (step threshold) init s) :
    Isolated threshold s ↔ Documented s := by
  have hh := handing_of_reachable h
  constructor
  · intro hi b x url hrec
    have hurl : url = .put (rawKey b x) := hh.history b _ hrec
    obtain ⟨d,⟨row,hrow,hacc⟩,he⟩ := hi.urls b url
      (handed_iff.mpr ⟨_,hrec,by simp [Response.urls]⟩)
    rw [hurl] at he
    rcases he with he | he
    · obtain ⟨-,rfl⟩ := rawKey_injective (Url.put.inj he)
      exact ⟨row,getDocument_eq_some.mpr ⟨hrow,hacc⟩⟩
    · cases he
  · intro hd
    refine ⟨fun b t s' ht hl => ?_,fun b url hu => ?_,fun b c u v hu hv hkey =>
      handed_apart hh hu hv hkey⟩
    · obtain ⟨hagree,hongoing⟩ := agree_trail h ht hl
      exact undisturbed_of_agree (sound_of_reachable h) (book_of_reachable h) hagree hongoing
    · rcases handed_key hh hu with ⟨d,hrec,rfl⟩ | ⟨d,hown,rfl⟩
      · obtain ⟨row,hrow⟩ := hd b d _ hrec
        exact ⟨d,⟨row,getDocument_eq_some.mp hrow⟩,Or.inl rfl⟩
      · exact ⟨d,hown,Or.inr rfl⟩

/-- Tenant isolation holds throughout a run exactly when no client receives
the upload URL of a document before the document is committed. -/
theorem tenant_isolation_iff {t : List (State × Label)} (ht : Trail (step threshold) init t s) :
    (∀ x ∈ Visited t s, Isolated threshold x) ↔ patient t = true := by
  rw [← documented_iff ht]
  constructor
  · intro h x hx
    exact (isolated_iff (ht.visited x hx)).mp (h x hx)
  · intro h x hx
    exact (isolated_iff (ht.visited x hx)).mpr (h x hx)

end Main

/-- Account 7 holds the upload URL of a document that is never committed. -/
theorem upload_url_of_no_document :
    Reachable (step 100) init (after vanishedRun) ∧ ¬ Isolated 100 (after vanishedRun) := by
  have hr : Reachable (step 100) init (after vanishedRun) :=
    reachable_of_run vanishedRun (by decide +kernel)
  refine ⟨hr,fun h => ?_⟩
  obtain ⟨row,hrow⟩ := (isolated_iff hr).mp h 7 1 (.put (rawKey 7 1)) (by decide +kernel)
  have hnone : (after vanishedRun).world.db.getDocument 1 7 = none := by decide +kernel
  rw [hnone] at hrow
  cases hrow

def strangerRun : List Label :=
  .arrive 2 8 .createDocument::.serve 2 { uuid := 5 } .ok::List.replicate 5 (.serve 2 {} .ok)++
    [.receive 2,.upload 8 (rawKey 8 5) ByteArray.empty,
      .arrive 3 8 (.processDocument 1 [.markdown]),.serve 3 {} .ok]

theorem tenant_isolation_iff_sample :
    Undisturbed 100 7 (after answeredRun) (after (answeredRun++strangerRun)) ∧
      handed (after (answeredRun++strangerRun)).world.history 8 (.put (rawKey 8 5)) = true := by
  have hrun : (run (step 100) init (answeredRun++strangerRun)).isSome = true := by decide +kernel
  obtain ⟨-,ht'⟩ := trail_path_append hrun
  have ht : Trail (step 100) init (path (step 100) init answeredRun) (after answeredRun) :=
    trail_path answeredRun (by decide +kernel)
  have hi := (tenant_isolation_iff ht).mpr (by decide +kernel) _ List.mem_cons_self
  exact ⟨hi.noninterference 7 _ _ ht' (by decide +kernel),by decide +kernel⟩

end DocPipeline.Tenants
