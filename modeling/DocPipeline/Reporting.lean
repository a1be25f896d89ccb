import DocPipeline.Adapters

/-!
# How failures of the infrastructure are reported

Each adapter translates the exceptions of one class, inside its own method.
So a failure is answered with 503 exactly when it is of that class and
strikes inside an adapter; a failure of another class, and any failure of the
session's commit, rollback or close, reaches the application untranslated.
-/

set_option autoImplicit false

namespace DocPipeline.Reporting
open DocPipeline.Identifiers DocPipeline.Records DocPipeline.Database DocPipeline.Calls
open DocPipeline.Routes DocPipeline.Adapters EffectProgram Analysis

abbrev LibAnswer := Answered LibCall LibCall.Resp LibraryError

/-- The call fails. Three exceptions are answers of the library: there is no
such object, no such queue, or already an active job. -/
def fails : LibAnswer → Bool
  | ⟨.headObject _,.error (.clientError code)⟩ => code ≠ "404"
  | ⟨.declareQueue true,.error .channelClosed⟩ => false
  | ⟨.execute (.createJob _),.error (.integrityError orig)⟩ => !namesIndex orig
  | ⟨_,.error _⟩ => true
  | ⟨_,.ok _⟩ => false

/-- The exceptions a library method raises, as documented. -/
def raises : LibCall → LibraryError → Bool
  | .execute _, x | .selectAccount _, x => x.isSQLAlchemyError || (x matches .osError _)
  | .commit, x | .rollback, x | .close, x => x.isSQLAlchemyError
  | .presign _, x | .headObject _, x | .getObject _, x | .putObject _ _, x =>
    x.isClientError || (x matches .botoCoreError _)
  | .connectRobust, x | .openChannel, x | .closeChannel, x => x.isAMQPError
  | .declareQueue _, x | .publish _, x => x.isAMQPError
  | .connected, _ | .plain _, _ => false

def documented : LibAnswer → Bool
  | ⟨c,.error x⟩ => raises c x
  | ⟨_,.ok _⟩ => true

def translated : LibCall → LibraryError → Bool
  | .execute _, x | .selectAccount _, x => x.isSQLAlchemyError
  | .presign _, x | .headObject _, x | .getObject _, x | .putObject _ _, x => x.isClientError
  | .connectRobust, x | .openChannel, x | .closeChannel, x => x.isAMQPError
  | .declareQueue _, x | .publish _, x => x.isAMQPError
  | _, _ => false

/-- The failure strikes where no adapter translates it: the connection of the
session cannot be opened, S3 fails without a `ClientError`, or the session
fails in its commit, rollback or close. -/
def untranslated : LibAnswer → Bool
  | ⟨c,.error x⟩ => fails ⟨c,.error x⟩ && !translated c x
  | ⟨_,.ok _⟩ => false

def unavailable : Exc → Bool
  | .storage | .queue | .database => true
  | _ => false

def analysis : Analysis LibCall LibCall.Resp LibraryError Thrown where
  inj := .library
  documented a := documented a = true
  fails a := fails a = true
  unhandled a := untranslated a = true
  unhandled_fails := by
    rintro ⟨c,x | v⟩ h
    · exact (Bool.and_eq_true_iff.mp h).1
    · cases h
  handled t := ∃ e, t = .service e ∧ unavailable e = true
  escaped t := answerTo t = .bare500

section Single
variable {c : LibCall}

/-- A method that runs one library call and translates what it raises. -/
theorem reports_catching {caught : LibraryError → Bool} {e : Exc} (he : unavailable e = true)
    (hf : ∀ x, fails ⟨c,.error x⟩ = true) (ht : ∀ x, translated c x = caught x) :
    analysis.Reports (catching caught e (invoke c)) := by
  intro as x h hdoc
  obtain ⟨as₁,as₂,r,rfl,h₁,h₂⟩ := ends_attempt h
  obtain ⟨y,rfl,rfl⟩ := ends_perform h₁
  cases y with
  | ok v =>
    cases h₂
    refine .of_not_fails ?_ _
    intro a ha
    obtain rfl := List.mem_singleton.mp ha
    simp [analysis, fails]
  | error y =>
    cases hc : caught y with
    | true =>
      simp only [Except.mapError, analysis, hc, if_true] at h₂
      cases h₂
      refine .of_handled ?_ ⟨e,rfl,he⟩
      intro a ha
      obtain rfl := List.mem_singleton.mp ha
      simp [analysis, untranslated, ht, hc]
    | false =>
      simp only [Except.mapError, analysis, hc] at h₂
      cases h₂
      refine .of_escaped ⟨_,List.mem_singleton_self _,?_⟩ rfl
      simp [analysis, untranslated, hf, ht, hc]

theorem not_fails_ok (v : c.Resp) : ¬ analysis.fails ⟨c,.ok v⟩ := by
  simp [analysis, fails]

/-- The methods of the session have no adapter. -/
theorem strict_session (h : c = .commit ∨ c = .rollback ∨ c = .close) :
    analysis.Strict (invoke c) := by
  refine strict_perform not_fails_ok (fun x => ?_) (fun _ => rfl)
  rcases h with rfl | rfl | rfl <;> rfl

theorem reports_plain (c : Call) : analysis.Reports (invoke (.plain c)) := by
  intro as x h hdoc
  obtain ⟨r,rfl,rfl⟩ := ends_perform h
  refine .of_not_fails ?_ _
  intro a ha
  obtain rfl := List.mem_singleton.mp ha
  cases r with
  | ok v => exact not_fails_ok v
  | error y => cases hdoc _ (List.mem_singleton_self _)

/-- A single call is answered once, and nothing is asked after it. -/
theorem forall_answered {P : LibAnswer → Prop} {a : LibAnswer} (h : P a) :
    ∀ b ∈ [a]++[], P b := by
  intro b hb
  obtain rfl := List.mem_singleton.mp hb
  exact h

theorem reports_objectExists (key : String) : analysis.Reports (objectExists key) := by
  intro as x h hdoc
  obtain ⟨as₁,as₂,r,rfl,h₁,h₂⟩ := ends_attempt h
  obtain ⟨y,rfl,rfl⟩ := ends_perform h₁
  cases y with
  | ok v =>
    cases h₂
    exact .of_not_fails (forall_answered (not_fails_ok v)) _
  | error y =>
    cases y with
    | clientError code =>
      by_cases hcode : code = "404"
      · subst hcode
        cases h₂
        exact .of_not_fails (forall_answered (by simp [analysis, fails])) _
      · simp only [Except.mapError, analysis, hcode, if_false] at h₂
        cases h₂
        exact .of_handled (forall_answered (by simp [analysis, untranslated, translated,
          LibraryError.isClientError])) ⟨.storage,rfl,rfl⟩
    | _ =>
      cases h₂
      exact .of_escaped ⟨_,List.mem_singleton_self _,rfl⟩ rfl

theorem reports_createJob (dto : CreateJobDTO) : analysis.Reports (Adapters.createJob dto) := by
  intro as x h hdoc
  obtain ⟨as₁,as₂,r,rfl,h₁,h₂⟩ := ends_attempt h
  obtain ⟨y,rfl,rfl⟩ := ends_perform h₁
  cases y with
  | ok v =>
    cases h₂
    exact .of_not_fails (forall_answered (not_fails_ok v)) _
  | error y =>
    cases y with
    | integrityError orig =>
      cases hindex : namesIndex orig with
      | true =>
        simp only [Except.mapError, analysis, hindex, if_true] at h₂
        cases h₂
        exact .of_not_fails (forall_answered (by simp [analysis, fails, hindex])) _
      | false =>
        simp only [Except.mapError, analysis, hindex] at h₂
        cases h₂
        exact .of_handled (forall_answered (by simp [analysis, untranslated, translated,
          LibraryError.isSQLAlchemyError])) ⟨.database,rfl,rfl⟩
    | sqlalchemyError text =>
      cases h₂
      exact .of_handled (forall_answered (by simp [analysis, untranslated, translated,
        LibraryError.isSQLAlchemyError])) ⟨.database,rfl,rfl⟩
    | _ =>
      cases h₂
      exact .of_escaped ⟨_,List.mem_singleton_self _,rfl⟩ rfl

end Single

section Broker
variable {α β : Type} {p : LibCode α}

/-- Inside the messaging service every failure is an `AMQPError`. -/
def Tame (p : LibCode α) : Prop :=
  ∀ as x, Ends analysis.inj p as x → (∀ a ∈ as, documented a = true) →
    (∀ a ∈ as, untranslated a = false) ∧
      (((∃ v, x = .ok v) ∧ ∀ a ∈ as, fails a = false) ∨
        ∃ y, x = .error (.library y) ∧ y.isAMQPError = true)

theorem tame_ret (a : α) : Tame (.ret a : LibCode α) := by
  intro as x h _
  cases h
  exact ⟨by simp,Or.inl ⟨⟨a,rfl⟩,by simp⟩⟩

theorem tame_invoke {c : LibCall}
    (hr : ∀ x, raises c x = true → x.isAMQPError = true ∧ translated c x = true) :
    Tame (invoke c) := by
  intro as x h hdoc
  obtain ⟨r,rfl,rfl⟩ := ends_perform h
  have hd := hdoc _ (List.mem_singleton_self _)
  simp only [List.mem_singleton, forall_eq]
  cases r with
  | ok v => exact ⟨rfl,Or.inl ⟨⟨v,rfl⟩,by simpa [analysis] using not_fails_ok v⟩⟩
  | error y =>
    obtain ⟨hy,ht⟩ := hr y hd
    exact ⟨by simp [untranslated, ht],Or.inr ⟨y,rfl,hy⟩⟩

theorem tame_andThen {f : α → LibCode β} (hp : Tame p) (hf : ∀ a, Tame (f a)) :
    Tame (andThen p f) := by
  intro as x h hdoc
  obtain ⟨as₁,as₂,r,rfl,h₁,h₂⟩ := ends_attempt h
  simp only [List.forall_mem_append] at hdoc ⊢
  obtain ⟨hu,⟨⟨v,rfl⟩,hno⟩ | ⟨y,rfl,hy⟩⟩ := hp as₁ r h₁ hdoc.1
  · obtain ⟨hu₂,hx⟩ := hf v as₂ x h₂ hdoc.2
    refine ⟨⟨hu,hu₂⟩,?_⟩
    rcases hx with ⟨hv,hno₂⟩ | hy
    · exact Or.inl ⟨hv,hno,hno₂⟩
    · exact Or.inr hy
  · cases h₂
    exact ⟨⟨hu,by simp⟩,Or.inr ⟨y,rfl,hy⟩⟩

theorem tame_withFinally {cleanup : LibCode Unit} (hp : Tame p) (hc : Tame cleanup) :
    Tame (withFinally p cleanup) := by
  intro as x h hdoc
  obtain ⟨as₁,as₂,r,rfl,h₁,h₂⟩ := ends_attempt h
  simp only [List.forall_mem_append] at hdoc ⊢
  obtain ⟨hu,hr⟩ := hp as₁ r h₁ hdoc.1
  obtain ⟨as₃,as₄,r',rfl,h₃,h₄⟩ := ends_attempt h₂
  simp only [List.forall_mem_append] at hdoc ⊢
  obtain ⟨hu₂,⟨⟨v,rfl⟩,hno⟩ | ⟨y,rfl,hy⟩⟩ := hc as₃ r' h₃ hdoc.2.1
  · obtain ⟨rfl,rfl⟩ := ends_ofExcept h₄
    refine ⟨⟨hu,hu₂,by simp⟩,?_⟩
    rcases hr with ⟨hv,hno₁⟩ | hy
    · exact Or.inl ⟨hv,hno₁,hno,by simp⟩
    · exact Or.inr hy
  · -- the exception of the cleanup replaces the one of the body
    cases h₄
    exact ⟨⟨hu,hu₂,by simp⟩,Or.inr ⟨y,rfl,hy⟩⟩

theorem tame_getConnection : Tame getConnection := by
  refine tame_andThen (tame_invoke (fun x h => by cases h)) (fun connected => ?_)
  cases connected with
  | true => exact tame_ret ()
  | false => exact tame_invoke (fun _ h => ⟨h,h⟩)

theorem tame_withChannel (hp : Tame p) : Tame (withChannel p) :=
  tame_andThen (tame_invoke (fun _ h => ⟨h,h⟩))
    (fun _ => tame_withFinally hp (tame_invoke (fun _ h => ⟨h,h⟩)))

theorem tame_declaredCount : Tame declaredCount := by
  intro as x h hdoc
  obtain ⟨as₁,as₂,r,rfl,h₁,h₂⟩ := ends_attempt h
  obtain ⟨y,rfl,rfl⟩ := ends_perform h₁
  cases y with
  | ok v =>
    cases h₂
    exact ⟨by simp [untranslated],Or.inl ⟨⟨v,rfl⟩,by simp [fails]⟩⟩
  | error y =>
    have hd : y.isAMQPError = true := hdoc _ List.mem_cons_self
    cases y with
    | channelClosed =>
      cases h₂
      exact ⟨by simp [untranslated, fails],Or.inl ⟨⟨0,rfl⟩,by simp [fails]⟩⟩
    | amqpError text =>
      cases h₂
      exact ⟨by simp [untranslated, translated, hd],Or.inr ⟨_,rfl,hd⟩⟩
    | _ => cases hd

theorem reports_tame (hp : Tame p) :
    analysis.Reports (catching LibraryError.isAMQPError .queue p) := by
  intro as x h hdoc
  obtain ⟨as₁,as₂,r,rfl,h₁,h₂⟩ := ends_attempt h
  obtain ⟨hu,hr⟩ := hp as₁ r h₁ (fun a ha => hdoc a (List.mem_append_left _ ha))
  rcases hr with ⟨⟨v,rfl⟩,hno⟩ | ⟨y,rfl,hy⟩
  · cases h₂
    refine .of_not_fails ?_ _
    intro a ha
    rw [List.append_nil] at ha
    simp [analysis, hno a ha]
  · simp only [hy, if_true] at h₂
    cases h₂
    refine .of_handled ?_ ⟨.queue,rfl,rfl⟩
    intro a ha
    rw [List.append_nil] at ha
    simp [analysis, hu a ha]

/-- The bodies of `enqueue` and `queue_depth`. -/
theorem tame_publishing (payload : Json) : Tame (do
    getConnection
    withChannel do
      let _ ← invoke (.declareQueue false)
      invoke (.publish payload)) :=
  tame_andThen tame_getConnection (fun _ => tame_withChannel
    (tame_andThen (tame_invoke (fun _ h => ⟨h,h⟩)) (fun _ => tame_invoke (fun _ h => ⟨h,h⟩))))

theorem tame_counting : Tame (do getConnection; withChannel declaredCount) :=
  tame_andThen tame_getConnection (fun _ => tame_withChannel tame_declaredCount)

end Broker

theorem reports_adapter (c : Call) : analysis.Reports (adapter c) := by
  cases c with
  | createJob dto => exact reports_createJob dto
  | commit => exact (strict_session (Or.inl rfl)).reports
  | rollback => exact (strict_session (Or.inr (Or.inl rfl))).reports
  | close => exact (strict_session (Or.inr (Or.inr rfl))).reports
  | objectExists key => exact reports_objectExists key
  | enqueue payload => exact reports_tame (tame_publishing payload)
  | queueDepth => exact reports_tame tame_counting
  | parse _ | ack | nack | uuid4 | respond _ => exact reports_plain _
  | _ => exact reports_catching rfl (fun _ => rfl) (fun _ => rfl)

section Faults
variable {α : Type} {as : List LibAnswer} {t : Thrown} {c : Call}

theorem fault_library (c : Call) (x : LibraryError) : ∃ f, (Thrown.library x).exc = c.fault f :=
  ⟨.unmapped x.str,rfl⟩

theorem fault_catching {caught : LibraryError → Bool} {p : LibCode α}
    (hp : ∀ as t, Ends Thrown.library p as (.error t) → (∀ a ∈ as, documented a = true) →
      ∃ x, t = .library x)
    (h : Ends Thrown.library (catching caught c.mapped p) as (.error t))
    (hdoc : ∀ a ∈ as, documented a = true) : ∃ f, t.exc = c.fault f := by
  obtain ⟨as₁,as₂,r,rfl,h₁,h₂⟩ := ends_attempt h
  cases r with
  | ok v => cases h₂
  | error y =>
    obtain ⟨x,rfl⟩ := hp as₁ y h₁ (fun a ha => hdoc a (List.mem_append_left _ ha))
    cases hc : caught x with
    | true =>
      simp only [hc, if_true] at h₂
      cases h₂
      exact ⟨.mapped,rfl⟩
    | false =>
      simp only [hc] at h₂
      cases h₂
      exact fault_library c x

theorem raised_invoke {b : LibCall} (h : Ends Thrown.library (invoke b) as (.error t)) :
    ∃ x, t = .library x := by
  obtain ⟨r,-,hr⟩ := ends_perform h
  cases r with
  | ok v => cases hr
  | error x =>
    cases hr
    exact ⟨x,rfl⟩

theorem raised_tame {p : LibCode α} (hp : Tame p) (h : Ends Thrown.library p as (.error t))
    (hdoc : ∀ a ∈ as, documented a = true) : ∃ x, t = .library x := by
  rcases (hp as _ h hdoc).2 with ⟨⟨v,hv⟩,-⟩ | ⟨x,hx,-⟩
  · cases hv
  · cases hx
    exact ⟨x,rfl⟩

/-- The faults of a call in the model of the system are the exceptions of its
adapter; the conflict with the index is an answer of the database there. -/
theorem adapter_fault (h : Ends Thrown.library (adapter c) as (.error t))
    (hdoc : ∀ a ∈ as, documented a = true) :
    (∃ f, t.exc = c.fault f) ∨ (∃ dto, c = .createJob dto) ∧ t.exc = .activeJobExists := by
  have hone : ∀ {b : LibCall}, ∀ as t, Ends Thrown.library (invoke b) as (.error t) →
      (∀ a ∈ as, documented a = true) → ∃ x, t = .library x := fun _ _ h _ => raised_invoke h
  cases c with
  | createJob dto =>
    obtain ⟨as₁,as₂,r,rfl,h₁,h₂⟩ := ends_attempt h
    cases r with
    | ok v => cases h₂
    | error y =>
      obtain ⟨x,rfl⟩ := raised_invoke h₁
      cases x with
      | integrityError orig =>
        cases hindex : namesIndex orig <;> simp only [hindex] at h₂ <;> cases h₂
        · exact Or.inl ⟨.mapped,rfl⟩
        · exact Or.inr ⟨⟨dto,rfl⟩,rfl⟩
      | sqlalchemyError text =>
        cases h₂
        exact Or.inl ⟨.mapped,rfl⟩
      | _ =>
        cases h₂
        exact Or.inl (fault_library _ _)
  | objectExists key =>
    obtain ⟨as₁,as₂,r,rfl,h₁,h₂⟩ := ends_attempt h
    cases r with
    | ok v => cases h₂
    | error y =>
      obtain ⟨x,rfl⟩ := raised_invoke h₁
      cases x with
      | clientError code =>
        by_cases hcode : code = "404"
        · simp only [hcode, if_true] at h₂
          cases h₂
        · simp only [hcode, if_false] at h₂
          cases h₂
          exact Or.inl ⟨.mapped,rfl⟩
      | _ =>
        cases h₂
        exact Or.inl (fault_library _ _)
  | enqueue payload =>
    exact Or.inl (fault_catching (fun _ _ => raised_tame (tame_publishing payload)) h hdoc)
  | queueDepth => exact Or.inl (fault_catching (fun _ _ => raised_tame tame_counting) h hdoc)
  | commit | rollback | close | parse _ | ack | nack | uuid4 | respond _ =>
    obtain ⟨x,rfl⟩ := raised_invoke h
    exact Or.inl (fault_library _ x)
  | _ => exact Or.inl (fault_catching hone h hdoc)

end Faults

section Requests
variable {α β : Type}

theorem interpret_attempt (p : Code α) (f : Except Exc α → Code β) :
    interpret (attempt p f) = attempt (interpret p) fun r => interpret (f (r.mapError Thrown.exc)) := by
  induction p with
  | ret a => rfl
  | raise e => rfl
  | call c k ih =>
    change attempt (adapter c) _ = attempt (attempt (adapter c) _) _
    rw [attempt_assoc]
    exact congrArg (attempt (adapter c)) (funext fun r => ih _)

/-- An exception stays of its kind when the services see it. -/
theorem tells_exc {as : List LibAnswer} {t : Thrown}
    (h : analysis.Tells as (.error t : Except Thrown α)) :
    analysis.Tells as (.error (.service t.exc) : Except Thrown β) where
  escapes hu := by
    obtain ⟨t',he,hesc⟩ := h.escapes hu
    cases he
    refine ⟨_,rfl,?_⟩
    cases t with
    | service e => exact hesc
    | library x => rfl
    | http s d => cases hesc
  handles hf hno := by
    obtain ⟨t',he,e,rfl,hun⟩ := h.handles hf hno
    cases he
    exact ⟨_,rfl,e,rfl,hun⟩

theorem reports_await (c : Call) : analysis.Reports (interpret (await c)) := by
  intro as x h hdoc
  obtain ⟨as₁,as₂,r,rfl,h₁,h₂⟩ := ends_attempt h
  have ht := reports_adapter c as₁ r h₁ (fun a ha => hdoc a (List.mem_append_left _ ha))
  cases r with
  | ok v =>
    cases h₂
    rw [List.append_nil]
    exact ht
  | error t =>
    cases h₂
    rw [List.append_nil]
    exact tells_exc ht

/-- The services have no `except` block, so an exception passes through them. -/
theorem reports_bind {p : Code α} {f : α → Code β} (hp : analysis.Reports (interpret p))
    (hf : ∀ a, analysis.Reports (interpret (f a))) : analysis.Reports (interpret (p >>= f)) := by
  rw [bind_eq, andThen, interpret_attempt]
  intro as x h hdoc
  obtain ⟨as₁,as₂,r,rfl,h₁,h₂⟩ := ends_attempt h
  have ht := hp as₁ r h₁ (fun a ha => hdoc a (List.mem_append_left _ ha))
  cases r with
  | ok a =>
    have ht₂ := hf a as₂ x h₂ (fun b hb => hdoc b (List.mem_append_right _ hb))
    exact .append_left ht.not_fails ht₂
  | error t =>
    cases h₂
    rw [List.append_nil]
    exact tells_exc ht

theorem reports_pure (a : α) : analysis.Reports (interpret (pure a : Code α)) := reports_ret a

theorem reports_error (e : Exc) : analysis.Reports (interpret (.raise e : Code α)) :=
  reports_raise (Thrown.service e)

theorem reports_signAll (rows : List ArtifactRow) (done : List (Uuid × ArtifactType × Url)) :
    analysis.Reports (interpret (signAll rows done)) := by
  induction rows generalizing done with
  | nil => exact reports_pure _
  | cons artifact rest ih => exact reports_bind (reports_await _) (fun url => ih _)

theorem reports_createService (threshold : ℕ) (dto : CreateJobDTO) :
    analysis.Reports (interpret (Routes.createJob threshold dto)) := by
  refine reports_bind (reports_await _) (fun document? => ?_)
  cases document? with
  | none => exact reports_error _
  | some document =>
    refine reports_bind (reports_await _) (fun uploaded => ?_)
    cases uploaded with
    | false => exact reports_error _
    | true =>
      refine reports_bind (reports_await _) (fun depth => ?_)
      split
      · exact reports_error _
      · refine reports_bind (reports_await _) (fun job => ?_)
        refine reports_bind (reports_await _) (fun _ => ?_)
        exact reports_bind (reports_await _) (fun _ => reports_pure job)

theorem reports_handler (threshold : ℕ) (account : AccountId) (route : Route) :
    analysis.Reports (interpret (handler threshold account route)) := by
  cases route with
  | createDocument =>
    refine reports_bind (reports_await _) (fun id => ?_)
    refine reports_bind (reports_await _) (fun document => ?_)
    exact reports_bind (reports_await _) (fun url => reports_pure _)
  | processDocument documentId artifactTypes =>
    exact reports_bind (reports_createService _ _) (fun job => reports_pure _)
  | getDocument documentId =>
    refine reports_bind (reports_await _) (fun document? => ?_)
    cases document? with
    | none => exact reports_error _
    | some document => exact reports_pure _
  | listArtifacts documentId =>
    refine reports_bind (reports_await _) (fun document? => ?_)
    cases document? with
    | none => exact reports_error _
    | some document => exact reports_bind (reports_await _) (fun rows => reports_signAll rows [])
  | getJob jobId =>
    refine reports_bind (reports_await _) (fun job? => ?_)
    cases job? with
    | none => exact reports_error _
    | some job => exact reports_pure _

theorem reports_session {block : LibCode α} (h : analysis.Reports block) :
    analysis.Reports (openSession block) := by
  refine Reports.withFinally (Reports.onError ?_ ?_) (strict_session (by simp))
  · exact Reports.andThen h (fun a => Reports.andThen (strict_session (by simp)).reports
      (fun _ => reports_ret a))
  · exact strict_session (by simp)

theorem reports_request (threshold : ℕ) (apiKey : Option String) (route : Route) :
    analysis.Reports (serveRequest threshold apiKey route) := by
  unfold serveRequest
  split
  · exact reports_raise _
  · refine reports_session (Reports.andThen ?_ (fun account => reports_handler _ _ _))
    refine Reports.andThen (reports_catching rfl (fun _ => rfl) (fun _ => rfl)) (fun account? => ?_)
    cases account? with
    | none => exact reports_raise _
    | some account => exact reports_ret _

end Requests

/-- A request during which a call of S3, Postgres or RabbitMQ fails is
answered with the 503 envelope of a service exception exactly when each of
the failures is translated by the adapter it strikes in. -/
theorem failure_reported_iff (threshold : ℕ) (apiKey : Option String) (route : Route)
    {as : List LibAnswer} {x : Except Thrown Response}
    (h : Ends Thrown.library (serveRequest threshold apiKey route) as x)
    (hdoc : ∀ a ∈ as, documented a = true) (hfail : ∃ a ∈ as, fails a = true) :
    (∃ e type, x = .error (.service e) ∧ (e = .storage ∨ e = .database ∨ e = .queue) ∧
      answerTo (.service e) = .envelope 503 type e.str) ↔ ∀ a ∈ as, untranslated a = false := by
  have ht := reports_request threshold apiKey route as x h hdoc
  constructor
  · rintro ⟨e,type,rfl,-,hans⟩ a ha
    by_contra hu
    obtain ⟨t,heq,hesc⟩ := ht.escapes ⟨a,ha,by simpa [analysis] using hu⟩
    cases heq
    rw [show answerTo (.service e) = .bare500 from hesc] at hans
    cases hans
  · intro hno
    obtain ⟨t,rfl,e,rfl,hun⟩ := ht.handles hfail (fun a ha => by simp [analysis, hno a ha])
    cases e with
    | storage => exact ⟨.storage,_,rfl,Or.inl rfl,rfl⟩
    | database => exact ⟨.database,_,rfl,Or.inr (Or.inl rfl),rfl⟩
    | queue => exact ⟨.queue,_,rfl,Or.inr (Or.inr rfl),rfl⟩
    | _ => cases hun

def unreachableStorage : List LibAnswer :=
  [⟨.selectAccount "key",.ok (some 7)⟩,
    ⟨.execute (.getDocument 1 7),.ok (some ⟨1,rawKey 7 1,7,0⟩)⟩,
    ⟨.headObject (rawKey 7 1),.error (.botoCoreError "Could not connect to the endpoint URL")⟩,
    ⟨.rollback,.ok ()⟩,⟨.close,.ok ()⟩]

theorem storage_connection_error_unreported : ∃ t,
    Ends Thrown.library (serveRequest 100 (some "key") (.processDocument 1 [.markdown]))
      unreachableStorage (.error t) ∧
    unreachableStorage.all documented = true ∧ unreachableStorage.any fails = true ∧
    answerTo t = .bare500 := by
  refine ⟨.service (.other "Could not connect to the endpoint URL"),?_,rfl,rfl,rfl⟩
  exact .call _ (.call _ (.call _ (.call _ (.call _ (.raise _)))))

def failingDatabase : List LibAnswer :=
  [⟨.selectAccount "key",.ok (some 7)⟩,
    ⟨.execute (.getDocument 1 7),.error (.sqlalchemyError "server closed the connection")⟩,
    ⟨.rollback,.ok ()⟩,⟨.close,.ok ()⟩]

theorem failure_reported_iff_sample : ∃ e type,
    Ends Thrown.library (serveRequest 100 (some "key") (.getDocument 1)) failingDatabase
      (.error (.service e)) ∧ answerTo (.service e) = .envelope 503 type e.str := by
  have h : Ends Thrown.library (serveRequest 100 (some "key") (.getDocument 1)) failingDatabase
      (.error (.service .database)) := .call _ (.call _ (.call _ (.call _ (.raise _))))
  have hdoc : ∀ a ∈ failingDatabase, documented a = true := List.all_eq_true.mp rfl
  have hfail : ∃ a ∈ failingDatabase, fails a = true := List.any_eq_true.mp rfl
  have hno : ∀ a ∈ failingDatabase, untranslated a = false := by
    have hall : failingDatabase.all (fun a => !untranslated a) = true := rfl
    intro a ha
    simpa using List.all_eq_true.mp hall a ha
  obtain ⟨e,type,heq,-,hans⟩ := (failure_reported_iff 100 (some "key") (.getDocument 1) h hdoc
    hfail).mpr hno
  cases heq
  exact ⟨_,type,h,hans⟩

end DocPipeline.Reporting
