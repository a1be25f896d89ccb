import DocPipeline.Library.Runs

/-!
# The broker connection of a messaging service

One `RabbitMQMessagingService` is shared by all requests. A call of `enqueue`
or `queue_depth` runs to its first await: it takes the stored connection if
that is open, and otherwise waits for a new one, which it stores when it
resumes. Other calls run in between.
-/

set_option autoImplicit false

namespace DocPipeline.Connections
open LabelledRuns

inductive Op where
  | openChannel
  | declareQueue (passive : Bool)
  | publish
  | closeChannel
  deriving DecidableEq

inductive Method where
  | enqueue
  | queueDepth
  deriving DecidableEq

def Method.ops : Method → List Op
  | .enqueue => [.openChannel,.declareQueue false,.publish,.closeChannel]
  | .queueDepth => [.openChannel,.declareQueue true,.closeChannel]

/-- `wasOpen` notes whether the connection was open when `_get_connection`
returned it. -/
inductive Caller where
  | absent
  | connecting (method : Method)
  | working (connection : ℕ) (wasOpen : Bool) (todo : List Op)
  | ended
  deriving DecidableEq

structure Service where
  connection : Option ℕ
  opened : ℕ
  closed : ℕ → Bool
  callers : ℕ → Caller

def init : Service := ⟨none,0,fun _ => false,fun _ => .absent⟩

inductive Label where
  | call (i : ℕ) (method : Method)
  | connected (i : ℕ)
  | refused (i : ℕ)
  | advance (i : ℕ)
  | fail (i : ℕ)
  | close (c : ℕ)
  deriving DecidableEq

def Service.isOpen (s : Service) (c : ℕ) : Bool := c < s.opened && !s.closed c

def Service.usable (s : Service) : Option ℕ := s.connection.filter (fun c => !s.closed c)

def Service.setCaller (s : Service) (i : ℕ) (x : Caller) : Service :=
  { s with callers := Function.update s.callers i x }

def Service.connect (s : Service) : Service :=
  { s with
    connection := some s.opened
    opened := s.opened+1
    closed := Function.update s.closed s.opened false }

def step (s : Service) : Label → Option Service
  | .call i method => match s.callers i with
    | .absent => match s.usable with
      | some c => some (s.setCaller i (.working c (s.isOpen c) method.ops))
      | none => some (s.setCaller i (.connecting method))
    | _ => none
  | .connected i => match s.callers i with
    | .connecting method =>
      some (s.connect.setCaller i (.working s.opened (s.connect.isOpen s.opened) method.ops))
    | _ => none
  | .refused i => match s.callers i with
    | .connecting _ => some (s.setCaller i .ended)
    | _ => none
  | .advance i => match s.callers i with
    | .working c b (_::todo) => some (s.setCaller i (.working c b todo))
    | .working _ _ [] => some (s.setCaller i .ended)
    | _ => none
  | .fail i => match s.callers i with
    | .working _ _ _ => some (s.setCaller i .ended)
    | _ => none
  | .close c => if s.isOpen c then some { s with closed := Function.update s.closed c true }
    else none

structure Kept (s : Service) : Prop where
  sole : ∀ c, s.isOpen c = true → s.connection = some c
  calls : ∀ i c b todo, s.callers i = .working c b todo → b = true

def unraced (s : Service) : Label → Bool
  | .connected _ => s.connection.all s.closed
  | _ => true

def Numbered (s : Service) : Prop := ∀ c, s.connection = some c → c < s.opened

section Steps
variable {s s' : Service} {l : Label}

@[simp] theorem isOpen_setCaller (i : ℕ) (x : Caller) (c : ℕ) :
    (s.setCaller i x).isOpen c = s.isOpen c := rfl

theorem isOpen_connect (c : ℕ) : s.connect.isOpen c = (s.isOpen c || c = s.opened) := by
  by_cases h : c = s.opened
  · simp [Service.connect, Service.isOpen, h]
  · have : c < s.opened+1 ↔ c < s.opened := by omega
    simp [Service.connect, Service.isOpen, h, this]

theorem usable_open (h : Numbered s) {c : ℕ} (hc : s.usable = some c) : s.isOpen c = true := by
  obtain ⟨hs,hopen⟩ := Option.filter_eq_some_iff.mp hc
  simp [Service.isOpen, h c hs, hopen]

/-- What a step does to the connections and to the calls. -/
theorem step_cases (h : step s l = some s') :
    (∃ i x, s' = s.setCaller i x ∧ (∀ j, l ≠ .connected j) ∧ ∀ c b todo, x = .working c b todo →
      (s.usable = some c ∧ b = s.isOpen c) ∨ ∃ todo', s.callers i = .working c b todo') ∨
    (∃ i, ∃ method : Method, l = .connected i ∧ s' = s.connect.setCaller i
      (.working s.opened (s.connect.isOpen s.opened) method.ops)) ∨
    ∃ c, l = .close c ∧ s' = { s with closed := Function.update s.closed c true } := by
  cases l with
  | call i method =>
    simp only [step] at h
    split at h
    · split at h
      · rename_i c hu
        refine Or.inl ⟨i,_,(Option.some.inj h).symm,by simp,?_⟩
        rintro c' b todo hx
        cases hx
        exact Or.inl ⟨hu,rfl⟩
      · exact Or.inl ⟨i,_,(Option.some.inj h).symm,by simp,by simp⟩
    · cases h
  | connected i =>
    simp only [step] at h
    split at h
    · rename_i method hm
      exact Or.inr (Or.inl ⟨i,method,rfl,(Option.some.inj h).symm⟩)
    · cases h
  | refused i =>
    simp only [step] at h
    split at h
    · exact Or.inl ⟨i,_,(Option.some.inj h).symm,by simp,by simp⟩
    · cases h
  | advance i =>
    simp only [step] at h
    split at h
    · rename_i c b op todo hw
      refine Or.inl ⟨i,_,(Option.some.inj h).symm,by simp,?_⟩
      rintro c' b' todo' hx
      cases hx
      exact Or.inr ⟨_,hw⟩
    · exact Or.inl ⟨i,_,(Option.some.inj h).symm,by simp,by simp⟩
    · cases h
  | fail i =>
    simp only [step] at h
    split at h
    · exact Or.inl ⟨i,_,(Option.some.inj h).symm,by simp,by simp⟩
    · cases h
  | close c =>
    simp only [step] at h
    split at h
    · exact Or.inr (Or.inr ⟨c,rfl,(Option.some.inj h).symm⟩)
    · cases h

theorem numbered_of_reachable (h : Reachable step init s) : Numbered s := by
  have h₀ : Numbered init := fun c hc => by cases hc
  refine h.invariant h₀ (fun s l s' _ hn hstep => ?_)
  rcases step_cases hstep with ⟨i,x,rfl,-⟩ | ⟨i,method,-,rfl⟩ | ⟨c,-,rfl⟩
  · exact hn
  · rintro c hc
    obtain rfl : s.opened = c := Option.some.inj hc
    exact Nat.lt_succ_self _
  · exact hn

theorem kept_step (hn : Numbered s) (h : Kept s) (hok : unraced s l = true) (hstep : step s l = some s') :
    Kept s' := by
  rcases step_cases hstep with ⟨i,x,rfl,-,hx⟩ | ⟨i,method,rfl,rfl⟩ | ⟨c,-,rfl⟩
  · refine ⟨h.sole,fun j c b todo hj => ?_⟩
    by_cases hij : j = i
    · subst hij
      simp only [Service.setCaller, Function.update_self] at hj
      rcases hx c b todo hj with ⟨hu,rfl⟩ | ⟨todo',hw⟩
      · exact usable_open hn hu
      · exact h.calls j c b todo' hw
    · simp only [Service.setCaller, Function.update_of_ne hij] at hj
      exact h.calls j c b todo hj
  · refine ⟨fun c hc => ?_,fun j c b todo hj => ?_⟩
    · rw [isOpen_setCaller, isOpen_connect] at hc
      rcases Bool.or_eq_true_iff.mp hc with hc | hc
      · -- an open connection would be the stored one, which is closed
        have hclosed : s.closed c = true := by simpa [unraced, h.sole c hc] using hok
        simp [Service.isOpen, hclosed] at hc
      · obtain rfl : c = s.opened := by simpa using hc
        rfl
    · by_cases hij : j = i
      · subst hij
        simp only [Service.setCaller, Function.update_self, Caller.working.injEq] at hj
        obtain ⟨-,rfl,-⟩ := hj
        simp [isOpen_connect]
      · simp only [Service.setCaller, Function.update_of_ne hij] at hj
        exact h.calls j c b todo hj
  · refine ⟨fun c' hc => h.sole c' ?_,h.calls⟩
    by_cases he : c' = c
    · simp [Service.isOpen, he] at hc
    · simpa [Service.isOpen, Function.update_of_ne he] using hc

theorem raced_step (hn : Numbered s) (hok : ¬ unraced s l = true) (hstep : step s l = some s') :
    ¬ Kept s' := by
  intro hk
  obtain ⟨i,c,rfl,hc,hopen⟩ : ∃ i c, l = .connected i ∧ s.connection = some c ∧
      s.closed c = false := by
    cases l with
    | connected i =>
      cases hc : s.connection with
      | none => simp [unraced, hc] at hok
      | some c => exact ⟨i,c,rfl,rfl,by simpa [unraced, hc] using hok⟩
    | _ => exact absurd rfl hok
  rcases step_cases hstep with ⟨_,_,-,hno,-⟩ | ⟨j,method,-,rfl⟩ | ⟨_,hl,-⟩
  · exact hno i rfl
  · have hlt := hn c hc
    have hs := hk.sole c (by
      rw [isOpen_setCaller, isOpen_connect]
      simp [Service.isOpen, hlt, hopen])
    have : s.opened = c := Option.some.inj hs
    omega
  · cases hl

/-- In a run, no open connection is ever lost exactly when every new one is
stored over a closed one; calls always work on a connection that was open. -/
theorem connection_kept_iff {t : List (Service × Label)} (ht : Trail step init t s) :
    (∀ x ∈ Visited t s, Kept x) ↔ Allowed (fun s l => unraced s l = true) t := by
  have h₀ : Kept init := ⟨fun c hc => by simp [Service.isOpen, init] at hc,
    fun i c b todo h => by cases h⟩
  exact ht.always_iff (fun x hx => numbered_of_reachable hx) h₀
    (fun _ _ _ hn _ hk hok hstep => kept_step hn hk hok hstep)
    (fun _ _ _ hn _ _ hok hstep => raced_step hn hok hstep)

end Steps

def orderlyRun : List Label :=
  [.call 0 .queueDepth,.connected 0,.call 1 .enqueue,.advance 1]

theorem connection_kept_iff_sample : Kept ((run step init orderlyRun).getD init) := by
  have hpass : passes step unraced init orderlyRun = true := by decide
  obtain ⟨t,ht,ha,-⟩ := trail_of_passes orderlyRun hpass
  exact (connection_kept_iff ht).mpr ha _ List.mem_cons_self

def racingRun : List Label := [.call 0 .queueDepth,.call 1 .queueDepth,.connected 0,.connected 1]

theorem racing_calls_leak_connection : ∃ s, Reachable step init s ∧ s.isOpen 0 = true ∧
    s.connection = some 1 ∧ ¬ Kept s := by
  have hr := reachable_of_run racingRun (by decide : (run step init racingRun).isSome = true)
  refine ⟨_,hr,by decide,by decide,fun hk => ?_⟩
  have := hk.sole 0 (by decide)
  revert this
  decide

end DocPipeline.Connections
