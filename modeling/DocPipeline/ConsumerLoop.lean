import DocPipeline.Progress
import DocPipeline.Library.Simulation

/-!
# The loop around the message handler

`RabbitMQConsumer.start` connects, takes one message after the other and
waits for the handler of each before it takes the next. The stop event, which
the signal handlers of the worker set, is read only when a message has come.
The loop is a refinement of the worker of the system: whatever holds in every
run of the system holds in every run of its loops.
-/

set_option autoImplicit false

namespace DocPipeline.ConsumerLoop
open DocPipeline.Identifiers DocPipeline.Records DocPipeline.Database DocPipeline.Calls
open DocPipeline.Consumer DocPipeline.Routes DocPipeline.System DocPipeline.Moves
open DocPipeline.Effects DocPipeline.Transactions DocPipeline.Ledger DocPipeline.Progress
open LabelledRuns EffectProgram

/-- Where `start` waits. The exits of the two `async with` blocks know the
message that the loop was left with and the exception that is on its way. -/
inductive Point where
  | connect
  | channel
  | setQos
  | declareQueue
  | iterate
  | next
  | received (m : Message)
  | shield
  | leaveIterator (hand : Option Message) (exc : Option Exc)
  | leaveConnection (hand : Option Message) (exc : Option Exc)
  | join
  | returned
  | raised (e : Exc)
  | killed

structure Consumer where
  point : Point
  stopping : Bool
  inFlight : Option (Message × Phase)

structure State where
  world : World
  consumers : ℕ → Consumer
  requests : ℕ → Option Request

def init : State where
  world := System.init.world
  consumers := fun _ => ⟨.connect,false,none⟩
  requests := System.init.requests

/-- `advance` ends a wait of the loop that concerns the broker and is not for
a message. An iterator may end or fail while the loop waits for a message
(`interrupt`). `requestStop` is a signal, `kill` the end of the process. -/
inductive Action where
  | advance (r : Except Exc Unit)
  | next (i : ℕ)
  | interrupt (exc : Option Exc)
  | check
  | call (o : Oracle) (out : Outcome)
  | resume
  | close (r : Except Exc Unit)
  | join
  | requestStop
  | kill

/-- `outside` is a step of the system that is not about a worker, or the loss
of a delivery. -/
inductive Label where
  | turn (w : ℕ) (a : Action)
  | outside (l : System.Label)

def leaving (exc : Option Exc) : Except Exc Unit → Option Exc
  | .ok _ => exc
  | .error e => some e

def proceed (p : Point) : Except Exc Unit → Point
  | .ok _ => p
  | .error e => .leaveConnection none (some e)

def advance (r : Except Exc Unit) : Point → Option Point
  | .connect => some (match r with
    | .ok _ => .channel
    | .error e => .raised e)
  | .channel => some (proceed .setQos r)
  | .setQos => some (proceed .declareQueue r)
  | .declareQueue => some (proceed .iterate r)
  | .iterate => some (proceed .next r)
  | .leaveIterator hand exc => some (.leaveConnection hand (leaving exc r))
  | _ => none

def gone : Point → Bool
  | .returned | .raised _ | .killed => true
  | _ => false

/-- `asyncio.shield` ends with the task, and `self._in_flight = None` is
reached when it has not raised. -/
def resume (c : Consumer) : Option Consumer :=
  match c.point, c.inFlight with
  | .shield, some (_,p) => match view p with
    | .ended (.ok _) => some { c with point := .next, inFlight := none }
    | .ended (.error e) => some { c with point := .leaveIterator none (some e) }
    | .calls _ _ => none
  | _, _ => none

def join (c : Consumer) : Option Consumer :=
  match c.point, c.inFlight with
  | .join, none => some { c with point := .returned }
  | .join, some (_,p) => match view p with
    | .ended (.ok _) => some { c with point := .returned }
    | .ended (.error e) => some { c with point := .raised e }
    | .calls _ _ => none
  | _, _ => none

def closed : Option Exc → Point
  | none => .join
  | some e => .raised e

def turn (σ : World) (w : ℕ) (c : Consumer) : Action → Option (Consumer × World)
  | .advance r => (advance r c.point).map fun p => ({ c with point := p },σ)
  | .next i => match c.point, σ.unsettled w, σ.ready[i]? with
    -- `prefetch_count=1`: nothing is delivered while a message is unsettled
    | .next, none, some m => some ({ c with point := .received m },{ σ with
        ready := σ.ready.eraseIdx i
        unsettled := Function.update σ.unsettled w (some m) })
    | _, _, _ => none
  | .interrupt exc => match c.point with
    | .next => some ({ c with point := .leaveIterator none exc },σ)
    | _ => none
  | .check => match c.point, c.stopping with
    | .received m, true => some ({ c with point := .leaveIterator (some m) none },σ)
    | .received m, false =>
      some ({ c with point := .shield, inFlight := some (m,start m.body) },σ)
    | _, _ => none
  | .call o out => match c.inFlight with
    | some (m,p) => match view p with
      | .calls call k => (exec σ (.worker w) o call out).map fun x =>
        ({ c with inFlight := some (m,k x.1) },World.record x.2
          (entered (k x.1) ++ if Outcome.took out then performed p else []))
      | .ended _ => none
    | none => none
  | .resume => (resume c).map (·,σ)
  | .close r => match c.point with
    -- the broker takes back what the connection has not settled
    | .leaveConnection _ exc =>
      some ({ c with point := closed (leaving exc r) },σ.requeue (.worker w))
    | _ => none
  | .join => (join c).map (·,σ)
  | .requestStop => if gone c.point then none else some ({ c with stopping := true },σ)
  | .kill =>
    if gone c.point then none
    else some ({ c with point := .killed, inFlight := none },
      (σ.discard (.worker w)).requeue (.worker w))

def Consumer.worker (c : Consumer) : Worker :=
  match c.point, c.inFlight with
  | .join, _ | .returned, _ | .raised _, _ | .killed, _ => .dead
  | _, some (m,p) => .handling m p
  | .received m, none => .received m
  | .leaveIterator (some m) _, none => .received m
  | .leaveConnection (some m) _, none => .received m
  | _, none => .idle

def State.system (s : State) : System.State where
  world := s.world
  workers := fun w => (s.consumers w).worker
  requests := s.requests

def foreign : System.Label → Bool
  | .lose _ => true
  | l => (workerAt l).isNone

def State.setConsumer (s : State) (w : ℕ) (c : Consumer) (σ : World) : State :=
  { s with consumers := Function.update s.consumers w c, world := σ }

def step (threshold : ℕ) (s : State) : Label → Option State
  | .turn w a => (turn s.world w (s.consumers w) a).map fun x => s.setConsumer w x.1 x.2
  | .outside l =>
    if foreign l then (System.step threshold s.system l).map fun x =>
      { s with world := x.world, requests := x.requests }
    else none

inductive Turn (σ : World) (w : ℕ) : Consumer → Action → Consumer → World → Prop
  | advance {p p' : Point} {b : Bool} {f : Option (Message × Phase)} {r : Except Exc Unit}
      (hp : ConsumerLoop.advance r p = some p') : Turn σ w ⟨p,b,f⟩ (.advance r) ⟨p',b,f⟩ σ
  | next {b : Bool} {f : Option (Message × Phase)} {i : ℕ} {m : Message}
      (hu : σ.unsettled w = none) (hm : σ.ready[i]? = some m) :
      Turn σ w ⟨.next,b,f⟩ (.next i) ⟨.received m,b,f⟩ { σ with
        ready := σ.ready.eraseIdx i
        unsettled := Function.update σ.unsettled w (some m) }
  | interrupt {b : Bool} {f : Option (Message × Phase)} {exc : Option Exc} :
      Turn σ w ⟨.next,b,f⟩ (.interrupt exc) ⟨.leaveIterator none exc,b,f⟩ σ
  | stop {f : Option (Message × Phase)} {m : Message} :
      Turn σ w ⟨.received m,true,f⟩ .check ⟨.leaveIterator (some m) none,true,f⟩ σ
  | begin {f : Option (Message × Phase)} {m : Message} :
      Turn σ w ⟨.received m,false,f⟩ .check ⟨.shield,false,some (m,start m.body)⟩ σ
  | call {q : Point} {b : Bool} {m : Message} {p : Phase} {c : Call}
      {k : Except Exc c.Resp → Phase} {o : Oracle} {out : Outcome} {r : Except Exc c.Resp}
      {σ' : World} (hv : view p = .calls c k) (he : exec σ (.worker w) o c out = some (r,σ')) :
      Turn σ w ⟨q,b,some (m,p)⟩ (.call o out) ⟨q,b,some (m,k r)⟩
        (World.record σ' (entered (k r) ++ if Outcome.took out then performed p else []))
  | returns {b : Bool} {m : Message} :
      Turn σ w ⟨.shield,b,some (m,.returned)⟩ .resume ⟨.next,b,none⟩ σ
  | raises {b d : Bool} {m : Message} {e : Exc} :
      Turn σ w ⟨.shield,b,some (m,.raised d e)⟩ .resume
        ⟨.leaveIterator none (some e),b,some (m,.raised d e)⟩ σ
  | close {b : Bool} {f : Option (Message × Phase)} {hand : Option Message} {exc : Option Exc}
      {r : Except Exc Unit} : Turn σ w ⟨.leaveConnection hand exc,b,f⟩ (.close r)
        ⟨closed (leaving exc r),b,f⟩ (σ.requeue (.worker w))
  | join {b : Bool} {f : Option (Message × Phase)} {p : Point} (hp : gone p = true) :
      Turn σ w ⟨.join,b,f⟩ .join ⟨p,b,f⟩ σ
  | requestStop {p : Point} {b : Bool} {f : Option (Message × Phase)} (hp : gone p = false) :
      Turn σ w ⟨p,b,f⟩ .requestStop ⟨p,true,f⟩ σ
  | kill {p : Point} {b : Bool} {f : Option (Message × Phase)} (hp : gone p = false) :
      Turn σ w ⟨p,b,f⟩ .kill ⟨.killed,b,none⟩ ((σ.discard (.worker w)).requeue (.worker w))

section Turns
variable {σ σ' : World} {w : ℕ} {c c' : Consumer} {a : Action}

theorem view_returned {p : Phase} {v : Unit} (h : view p = .ended (.ok v)) : p = .returned := by
  cases p <;> first | rfl | cases h

theorem view_raised {p : Phase} {e : Exc} (h : view p = .ended (.error e)) :
    ∃ d, p = .raised d e := by
  cases p <;> cases h
  exact ⟨_,rfl⟩

theorem turn_cases (h : turn σ w c a = some (c',σ')) : Turn σ w c a c' σ' := by
  obtain ⟨p,b,f⟩ := c
  cases a with
  | advance r =>
    obtain ⟨p',hp,heq⟩ := Option.map_eq_some_iff.mp h
    cases heq
    exact .advance hp
  | next i =>
    simp only [turn] at h
    split at h
    · rename_i hp hu hm
      cases hp
      cases h
      exact .next hu hm
    · cases h
  | interrupt exc => cases p <;> cases h; exact .interrupt
  | check => cases p <;> cases b <;> cases h; exacts [.begin,.stop]
  | call o out =>
    rcases f with _ | ⟨m,p'⟩
    · cases h
    · simp only [turn] at h
      split at h
      · rename_i call k hv
        obtain ⟨x,hx,heq⟩ := Option.map_eq_some_iff.mp h
        cases heq
        exact .call hv hx
      · cases h
  | resume =>
    obtain ⟨x,hx,heq⟩ := Option.map_eq_some_iff.mp h
    cases heq
    rcases f with _ | ⟨m,p'⟩
    · cases p <;> cases hx
    · cases p with
      | shield =>
        simp only [resume] at hx
        split at hx
        · rename_i v hv
          obtain rfl := view_returned hv
          cases hx
          exact .returns
        · rename_i e hv
          obtain ⟨d,rfl⟩ := view_raised hv
          cases hx
          exact .raises
        · cases hx
      | _ => cases hx
  | close r => cases p <;> cases h; exact .close
  | join =>
    obtain ⟨x,hx,heq⟩ := Option.map_eq_some_iff.mp h
    cases heq
    rcases f with _ | ⟨m,p'⟩
    · cases p <;> cases hx
      exact .join rfl
    · cases p with
      | join =>
        simp only [join] at hx
        split at hx <;> cases hx <;> exact .join rfl
      | _ => cases hx
  | requestStop =>
    simp only [turn] at h
    split at h
    · cases h
    · cases h
      rename_i hp
      exact .requestStop (Bool.eq_false_iff.mpr hp)
  | kill =>
    simp only [turn] at h
    split at h
    · cases h
    · cases h
      rename_i hp
      exact .kill (Bool.eq_false_iff.mpr hp)

end Turns

def propagates : Point → Bool
  | .leaveIterator none (some _) | .leaveConnection none (some _) | .raised _ => true
  | _ => false

/-- A handler is at work only while the loop waits for it; the one that has
raised stays in `_in_flight` on the way out. -/
inductive Coherent : Consumer → Prop
  | resting {p : Point} {b : Bool} (hp : p ≠ .shield) : Coherent ⟨p,b,none⟩
  | handling (b : Bool) (m : Message) (p : Phase) : Coherent ⟨.shield,b,some (m,p)⟩
  | raised {p : Point} {b d : Bool} {m : Message} {e : Exc} (hp : propagates p = true) :
      Coherent ⟨p,b,some (m,.raised d e)⟩

section Coherence
variable {σ σ' : World} {w : ℕ} {c c' : Consumer} {a : Action}

theorem propagates_advance {p p' : Point} {r : Except Exc Unit} (hp : propagates p = true)
    (h : advance r p = some p') : propagates p' = true := by
  cases p with
  | leaveIterator hand exc =>
    cases h
    cases hand <;> cases exc <;> cases r <;> first | rfl | cases hp
  | leaveConnection hand exc => cases h
  | raised e => cases h
  | _ => cases hp

theorem advance_shield {p : Point} {r : Except Exc Unit} : advance r p ≠ some .shield := by
  cases p <;> cases r <;> simp [advance, proceed]

theorem Coherent.turn (h : Coherent c) (ht : Turn σ w c a c' σ') : Coherent c' := by
  cases ht with
  | advance hp =>
    cases h with
    | resting hq => exact .resting (fun he => advance_shield (he ▸ hp))
    | handling => cases hp
    | raised hq => exact .raised (propagates_advance hq hp)
  | next | interrupt | stop =>
    cases h with
    | resting hq => exact .resting nofun
    | raised hq => cases hq
  | begin => exact .handling _ _ _
  | call hv he =>
    cases h with
    | handling => exact .handling _ _ _
    | raised hq => cases hv
  | returns => exact .resting nofun
  | raises => exact .raised rfl
  | @close b f hand exc r =>
    cases h with
    | resting hq => exact .resting (by cases leaving exc r <;> nofun)
    | raised hq =>
      refine .raised ?_
      cases hand <;> cases exc <;> cases r <;> first | rfl | cases hq
  | @join b f p hp =>
    cases h with
    | resting hq =>
      refine .resting ?_
      rintro rfl
      cases hp
    | raised hq => cases hq
  | requestStop hp =>
    cases h with
    | resting hq => exact .resting hq
    | handling => exact .handling _ _ _
    | raised hq => exact .raised hq
  | kill hp => exact .resting nofun

end Coherence

section Seen
variable {threshold : ℕ} {σ σ' : World} {w : ℕ} {c c' : Consumer} {a : Action} {S : System.State}

theorem discard_self {p : Proc} (h : σ.writesOf p = []) : σ.discard p = σ := by
  have hall : σ.inflight.filter (fun e => e.1 ≠ p) = σ.inflight := by
    refine List.filter_eq_self.mpr fun e he => decide_eq_true fun hp => ?_
    have hmem : e.2 ∈ σ.writesOf p := (mem_writesOf e.2).mpr (by rw [← hp]; exact he)
    rw [h] at hmem
    cases hmem
  unfold World.discard
  rw [hall]

theorem requeue_self (h : σ.unsettled w = none) : σ.requeue (.worker w) = σ := by
  simp only [World.requeue, h]

theorem worker_same {x : Worker} (h : S.workers w = x) :
    { S.setWorker w x with world := S.world } = S := by
  subst h
  simp [State.setWorker]

/-- A loop that is left outside its handler is a worker that ends. -/
theorem worker_dies (threshold : ℕ) (hne : S.workers w ≠ .dead) :
    ∃ l, System.step threshold S l = some { S.setWorker w .dead with
      world := (S.world.discard (.worker w)).requeue (.worker w) } := by
  refine ⟨.die w,?_⟩
  cases hw : S.workers w with
  | dead => exact absurd hw hne
  | _ => simp only [System.step, hw, State.endWorker]

/-- Of the loop's own calls, only a first connection that fails shows in the
system. -/
theorem advance_seen {p p' : Point} {b : Bool} {f : Option (Message × Phase)} {r : Except Exc Unit}
    (hr : Reachable (System.step threshold) System.init S)
    (hw : S.workers w = Consumer.worker ⟨p,b,f⟩) (hc : Coherent ⟨p,b,f⟩)
    (hp : advance r p = some p') :
    { S.setWorker w (Consumer.worker ⟨p',b,f⟩) with world := S.world } = S ∨
      ∃ l, System.step threshold S l =
        some { S.setWorker w (Consumer.worker ⟨p',b,f⟩) with world := S.world } := by
  cases hc with
  | resting hq =>
    cases p with
    | connect =>
      cases r with
      | ok v =>
        cases hp
        exact Or.inl (worker_same hw)
      | error e =>
        cases hp
        have hwrites := (opened_of_reachable hr).workers w
        have hrel := relieved_of_reachable hr w
        rw [hw] at hwrites hrel
        have hlive : S.workers w ≠ .dead := by
          rw [hw]
          intro h
          cases h
        have hdies := worker_dies threshold hlive
        rw [discard_self hwrites, requeue_self (hrel rfl)] at hdies
        exact Or.inr hdies
    | leaveIterator hand exc =>
      cases hp
      refine Or.inl (worker_same (hw.trans ?_))
      cases hand <;> rfl
    | leaveConnection hand exc => cases hp
    | _ => cases hp <;> cases r <;> exact Or.inl (worker_same hw)
  | handling => cases hp
  | raised hq =>
    cases p with
    | leaveIterator hand exc =>
      cases hp
      exact Or.inl (worker_same hw)
    | leaveConnection hand exc => cases hp
    | raised e => cases hp
    | _ => cases hq

/-- A loop that has closed its connection is a worker that ends. -/
theorem close_seen {b : Bool} {f : Option (Message × Phase)} {hand : Option Message}
    {exc : Option Exc} (hr : Reachable (System.step threshold) System.init S)
    (hw : S.workers w = Consumer.worker ⟨.leaveConnection hand exc,b,f⟩)
    (hc : Coherent ⟨.leaveConnection hand exc,b,f⟩) :
    ∃ l, System.step threshold S l =
      some { S.setWorker w .dead with world := S.world.requeue (.worker w) } := by
  have hwrites := (opened_of_reachable hr).workers w
  rw [hw] at hwrites
  have hlive : S.workers w ≠ .dead := by
    rw [hw]
    rcases f with _ | ⟨m,p⟩
    · cases hand <;> intro h <;> cases h
    · intro h
      cases h
  have hnone : S.world.writesOf (.worker w) = [] := by
    cases hc with
    | resting hq => cases hand <;> exact hwrites
    | raised hq => exact hwrites
  have hdies := worker_dies threshold hlive
  rwa [discard_self hnone] at hdies

/-- What a turn of the loop is in the system. -/
theorem turn_seen (hr : Reachable (System.step threshold) System.init S)
    (hw : S.workers w = c.worker) (hc : Coherent c) (ht : Turn S.world w c a c' σ') :
    { S.setWorker w c'.worker with world := σ' } = S ∨
      ∃ l, System.step threshold S l = some { S.setWorker w c'.worker with world := σ' } := by
  cases ht with
  | advance hp => exact advance_seen hr hw hc hp
  | @next b f i m hu hm =>
    cases hc with
    | resting hq =>
      refine Or.inr ⟨.deliver w i,?_⟩
      simp only [System.step, hw, Consumer.worker, hu, hm]
    | raised hq => cases hq
  | interrupt | stop =>
    cases hc with
    | resting hq => exact Or.inl (worker_same hw)
    | raised hq => cases hq
  | begin =>
    cases hc with
    | resting hq =>
      refine Or.inr ⟨.begin w,?_⟩
      simp only [System.step, hw, Consumer.worker, State.setWorker]
    | raised hq => cases hq
  | @call q b m p call k o out r σ' hv he =>
    cases hc with
    | handling =>
      refine Or.inr ⟨.call w o out,?_⟩
      simp only [System.step, System.callStep, hw, Consumer.worker, hv, he, Option.map_some]
    | raised hq => cases hv
  | returns =>
    refine Or.inr ⟨.loop w,?_⟩
    simp only [System.step, hw, Consumer.worker, State.setWorker]
  | raises => exact Or.inl (worker_same hw)
  | @close b f hand exc r =>
    have hdead : Consumer.worker ⟨closed (leaving exc r),b,f⟩ = .dead := by
      cases leaving exc r <;> rfl
    rw [hdead]
    exact Or.inr (close_seen hr hw hc)
  | @join b f p hp =>
    refine Or.inl (worker_same (hw.trans ?_))
    cases p <;> first | rfl | cases hp
  | @requestStop p b f hp =>
    refine Or.inl (worker_same (hw.trans ?_))
    cases p <;> rfl
  | @kill p b f hp =>
    by_cases hdead : S.workers w = .dead
    · have hwrites := (opened_of_reachable hr).workers w
      have hrel := relieved_of_reachable hr w
      rw [hdead] at hwrites hrel
      rw [discard_self hwrites, requeue_self (hrel rfl)]
      exact Or.inl (worker_same hdead)
    · exact Or.inr (worker_dies threshold hdead)

end Seen

section Refinement
variable {threshold : ℕ} {s s' : State} {l : Label}

theorem system_setConsumer (s : State) (w : ℕ) (c : Consumer) (σ : World) :
    (s.setConsumer w c σ).system = { s.system.setWorker w c.worker with world := σ } := by
  simp only [State.system, State.setConsumer, System.State.setWorker, System.State.mk.injEq,
    true_and, and_true]
  funext v
  by_cases hv : v = w
  · subst hv
    simp
  · simp [hv]

theorem system_outside {l : System.Label} {x : System.State} (hf : foreign l = true)
    (h : System.step threshold s.system l = some x) :
    ({ s with world := x.world, requests := x.requests } : State).system = x := by
  have hworkers : x.workers = s.system.workers := by
    have hm := step_move h
    cases hm with
    | lose hw hu => rfl
    | serve hq hv he => rfl
    | arrive account route hq => rfl
    | abort hq => rfl
    | receive hq hw => rfl
    | upload content hu => rfl
    | duplicate hi => rfl
    | inject body => rfl
    | _ => cases hf
  cases x
  cases hworkers
  rfl

theorem coherent_of_reachable (h : Reachable (step threshold) init s) (w : ℕ) :
    Coherent (s.consumers w) := by
  refine h.invariant (I := fun s => ∀ w, Coherent (s.consumers w))
    (fun w => .resting (p := .connect) nofun) (fun s l s' _ hc hstep v => ?_) w
  cases l with
  | turn u a =>
    obtain ⟨x,hx,rfl⟩ := Option.map_eq_some_iff.mp hstep
    simp only [State.setConsumer]
    by_cases hv : v = u
    · subst hv
      rw [Function.update_self]
      exact (hc v).turn (turn_cases hx)
    · rw [Function.update_of_ne hv]
      exact hc v
  | outside l =>
    simp only [step] at hstep
    split at hstep
    · obtain ⟨x,hx,rfl⟩ := Option.map_eq_some_iff.mp hstep
      exact hc v
    · cases hstep

theorem simulates : Simulates (step threshold) init (System.step threshold) State.system := by
  intro s l s' hr hrs hstep
  cases l with
  | turn w a =>
    obtain ⟨x,hx,rfl⟩ := Option.map_eq_some_iff.mp hstep
    rw [system_setConsumer]
    exact turn_seen hrs rfl (coherent_of_reachable hr w) (turn_cases hx)
  | outside l =>
    simp only [step] at hstep
    split at hstep
    · obtain ⟨x,hx,rfl⟩ := Option.map_eq_some_iff.mp hstep
      rename_i hf
      exact Or.inr ⟨l,(system_outside hf hx).symm ▸ hx⟩
    · cases hstep

/-- Every run of the consumer loops, with any requests, signals and failures,
passes through the same worlds as a run of the system. -/
theorem loop_refines {t : List (State × Label)} (ht : Trail (step threshold) init t s) :
    ∃ t', Trail (System.step threshold) System.init t' s.system ∧
      ∀ y, y ∈ Visited t' s.system ↔ ∃ x ∈ Visited t s, x.system = y :=
  simulates.trail ht

def signalRun : List Label :=
  List.replicate 5 (.turn 0 (.advance (.ok ())))++[.outside (.inject .malformed),.turn 0 (.next 0),
    .turn 0 .check,.turn 0 .requestStop]

def leaveLabels : List Label :=
  [.turn 0 (.call {} .ok),.turn 0 .resume,.outside (.inject .malformed),.turn 0 (.next 0),
    .turn 0 .check,.turn 0 (.advance (.ok ())),.turn 0 (.close (.ok ())),.turn 0 .join]

def reached (ls : List Label) : State := (run (step 100) init ls).getD init

theorem loop_refines_sample :
    Reachable (System.step 100) System.init (reached (signalRun++leaveLabels)).system := by
  have hsome : (run (step 100) init (signalRun++leaveLabels)).isSome = true := by decide +kernel
  obtain ⟨t',ht',-⟩ := loop_refines (trail_path (signalRun++leaveLabels) hsome)
  exact ⟨t',ht'⟩

end Refinement

def closeCalls : Site → ℕ
  | .dropping | .claiming => 1
  | .looked _ => 22
  | .claimed _ _ => 18
  | .processed _ _ => 8
  | .requeued _ _ => 3
  | .failed _ _ => 2

def callsLeft : Phase → ℕ
  | .ackPoison => 1
  | .lookup _ => 25
  | .ackDrop => 4
  | .claim _ => 21
  | .nack => 4
  | .processJob _ _ => 17
  | .processDocument _ _ _ => 16
  | .processFetch _ _ _ _ => 15
  | .processParse _ _ _ _ _ => 14
  | .processPut _ _ _ _ _ => 13
  | .processArtifact _ _ _ _ _ => 12
  | .processComplete _ _ _ _ _ => 11
  | .ackSuccess _ _ => 7
  | .requeue _ _ _ => 6
  | .fail _ _ _ => 6
  | .enqueue _ _ => 2
  | .ackFailure => 1
  | .commit site => closeCalls site+2
  | .rollback site _ => closeCalls site+1
  | .close site _ => closeCalls site
  | .returned => 0
  | .raised _ _ => 0

def turnsAt : Point → ℕ
  | .connect => 10
  | .channel => 9
  | .setQos => 8
  | .declareQueue => 7
  | .iterate => 6
  | .next => 5
  | .received _ => 4
  | .shield => 6
  | .leaveIterator _ _ => 3
  | .leaveConnection _ _ => 2
  | .join => 1
  | .returned | .raised _ | .killed => 0

def turnsLeft (c : Consumer) : ℕ := turnsAt c.point+c.inFlight.elim 0 fun x => callsLeft x.2

def own : Action → Bool
  | .requestStop | .kill => false
  | _ => true

def proceeds : Action → Bool
  | .interrupt _ => false
  | a => own a

def turnsOf (w : ℕ) : State × Label → Bool
  | (_,.turn v a) => v = w && own a
  | _ => false

section Stopping
variable {threshold : ℕ} {s s' : State} {σ σ' : World} {w : ℕ} {c c' : Consumer} {a : Action}
  {p : Phase} {m : Message}

theorem callsLeft_onFailure (job : Uuid) (started : JobRow) (e : Exc) :
    callsLeft (onFailure job started e) = 6 := by
  unfold onFailure
  split <;> rfl

theorem callsLeft_leave (site : Site) (e : Option Exc) :
    callsLeft (leave site e)+1 ≤ closeCalls site := by
  cases site with
  | processed job started =>
    cases e with
    | none => exact le_refl 8
    | some e =>
      rw [leave, callsLeft_onFailure]
      exact (by decide : 6+1 ≤ 8)
  | requeued job started => rcases e with _ | e <;> (try cases e) <;> simp [leave, callsLeft, closeCalls]
  | failed job started => rcases e with _ | e <;> (try cases e) <;> simp [leave, callsLeft, closeCalls]
  | _ => cases e <;> simp [leave, callsLeft, closeCalls]

/-- Whatever a call of the handler is answered, the handler comes nearer to
its end. -/
theorem callsLeft_call {c : Call} {k : Except Exc c.Resp → Phase} (hv : view p = .calls c k)
    (r : Except Exc c.Resp) : callsLeft (k r)+1 ≤ callsLeft p := by
  cases p with
  | returned => cases hv
  | raised d e => cases hv
  | close site e =>
    cases hv
    cases r with
    | ok _ => exact callsLeft_leave site e
    | error e' => exact callsLeft_leave site (some e')
  | lookup job =>
    cases hv
    rcases r with e | _ | row
    · simp [callsLeft, closeCalls]
    · simp [callsLeft]
    · dsimp only
      split <;> simp [callsLeft, closeCalls]
  | claim job =>
    cases hv
    rcases r with e | started
    · cases e <;> simp [callsLeft, closeCalls]
    · simp [callsLeft, closeCalls]
  | ackSuccess job started =>
    cases hv
    rcases r with e | _
    · exact Nat.succ_le_succ (callsLeft_onFailure job started e).le
    · simp [callsLeft]
  | enqueue job started =>
    cases hv
    rcases r with e | _
    · cases e <;> simp [callsLeft]
    · simp [callsLeft]
  | processJob job started =>
    cases hv
    rcases r with e | _ | row <;> simp [callsLeft, closeCalls]
  | processDocument job started row =>
    cases hv
    rcases r with e | _ | document <;> simp [callsLeft, closeCalls]
  | _ =>
    cases hv
    cases r <;> simp [callsLeft, closeCalls]

theorem callsLeft_le (p : Phase) : callsLeft p ≤ 25 := by
  cases p with
  | commit site => cases site <;> simp [callsLeft, closeCalls]
  | rollback site e => cases site <;> simp [callsLeft, closeCalls]
  | close site e => cases site <;> simp [callsLeft, closeCalls]
  | _ => simp [callsLeft]

theorem turnsLeft_le (hc : Coherent c) : turnsLeft c ≤ 31 := by
  cases hc with
  | @resting q b hq => cases q <;> simp [turnsLeft, turnsAt]
  | handling b m p => exact Nat.add_le_add_left (callsLeft_le p) 6
  | @raised q b d m e hq => cases q <;> simp [turnsLeft, turnsAt, callsLeft]

theorem turnsAt_advance {q q' : Point} {r : Except Exc Unit} (h : advance r q = some q') :
    turnsAt q'+1 ≤ turnsAt q := by
  cases q <;> cases r <;> cases h <;> simp [turnsAt, proceed]

theorem turnsAt_gone {q : Point} (h : gone q = true) : turnsAt q = 0 := by
  cases q <;> first | rfl | cases h

/-- What a turn does to a loop that has been told to stop. -/
theorem stopping_turn (hc : Coherent c) (hb : c.stopping = true) (ht : Turn σ w c a c' σ') :
    c'.stopping = true ∧ turnsLeft c'+(if own a then 1 else 0) ≤ turnsLeft c ∧
      ∀ m p, c'.inFlight = some (m,p) → ∃ p', c.inFlight = some (m,p') := by
  unfold turnsLeft
  cases ht with
  | @advance q q' b f r hq =>
    have hle := turnsAt_advance hq
    refine ⟨hb,?_,fun m p h => ⟨p,h⟩⟩
    simp only [own, if_true]
    omega
  | next | interrupt =>
    refine ⟨hb,?_,fun m p h => ⟨p,h⟩⟩
    simp only [own, if_true, turnsAt]
    omega
  | stop =>
    refine ⟨rfl,?_,fun m p h => ⟨p,h⟩⟩
    simp only [own, if_true, turnsAt]
    omega
  | begin => cases hb
  | @call q b m p c k o out r σ' hv he =>
    cases hc with
    | handling =>
      refine ⟨hb,Nat.add_le_add_left (callsLeft_call hv r) 6,?_⟩
      rintro m' p' h
      cases h
      exact ⟨p,rfl⟩
    | raised hq => cases hv
  | returns => exact ⟨hb,le_refl 6,fun m p h => by cases h⟩
  | raises => exact ⟨hb,by simp [turnsAt, own],fun m p h => ⟨p,h⟩⟩
  | @close b f hand exc r =>
    refine ⟨hb,?_,fun m p h => ⟨p,h⟩⟩
    have hle : turnsAt (closed (leaving exc r)) ≤ 1 := by
      cases leaving exc r <;> simp [closed, turnsAt]
    have htwo : turnsAt (.leaveConnection hand exc) = 2 := rfl
    simp only [own, if_true]
    omega
  | @join b f q hq =>
    refine ⟨hb,?_,fun m p h => ⟨p,h⟩⟩
    have hone : turnsAt .join = 1 := rfl
    simp only [turnsAt_gone hq, own, if_true]
    omega
  | requestStop hq => exact ⟨rfl,le_refl _,fun m p h => ⟨p,h⟩⟩
  | kill hq => exact ⟨hb,Nat.zero_le _,fun m p h => by cases h⟩

theorem outside_consumers {l : System.Label} (h : step threshold s (.outside l) = some s') :
    s'.consumers = s.consumers := by
  simp only [step] at h
  split at h
  · obtain ⟨x,-,rfl⟩ := Option.map_eq_some_iff.mp h
    rfl
  · cases h

/-- What any step does to such a loop. -/
theorem stopping_step {l : Label} (hr : Reachable (step threshold) init s)
    (hb : (s.consumers w).stopping = true) (hstep : step threshold s l = some s') :
    (s'.consumers w).stopping = true ∧
      turnsLeft (s'.consumers w)+(if turnsOf w (s,l) then 1 else 0) ≤ turnsLeft (s.consumers w) ∧
      ∀ m p, (s'.consumers w).inFlight = some (m,p) →
        ∃ p', (s.consumers w).inFlight = some (m,p') := by
  cases l with
  | turn v a =>
    obtain ⟨x,hx,rfl⟩ := Option.map_eq_some_iff.mp hstep
    by_cases hv : v = w
    · subst hv
      have hs := stopping_turn (coherent_of_reachable hr v) hb (turn_cases hx)
      simpa [State.setConsumer, turnsOf] using hs
    · have hsame : (s.setConsumer v x.1 x.2).consumers w = s.consumers w :=
        Function.update_of_ne (Ne.symm hv) _ _
      rw [hsame]
      exact ⟨hb,by simp [turnsOf, hv],fun m p h => ⟨p,h⟩⟩
  | outside l =>
    rw [outside_consumers hstep]
    exact ⟨hb,by simp [turnsOf],fun m p h => ⟨p,h⟩⟩

/-- A loop that has not ended can go on unless it waits for a message. -/
theorem waits_of_stuck (hc : Coherent c) (hu : c.point = .next → σ.unsettled w = none)
    (h : ∀ a, proceeds a = true → turn σ w c a = none) :
    gone c.point = true ∨ (c.point = .next ∧ σ.ready = []) := by
  obtain ⟨q,b,f⟩ := c
  cases q with
  | next =>
    refine Or.inr ⟨rfl,?_⟩
    have hn := h (.next 0) rfl
    rcases hready : σ.ready with _ | ⟨m,ms⟩
    · rfl
    · simp [turn, hu rfl, hready] at hn
  | received m =>
    have hn := h .check rfl
    cases b <;> cases hn
  | shield =>
    cases hc with
    | resting hq => exact absurd rfl hq
    | handling b m p =>
      cases hv : view p with
      | ended r =>
        have hn := h .resume rfl
        cases r <;> simp [turn, resume, hv] at hn
      | calls c k =>
        have hn := h (.call {} (.raises .mapped)) rfl
        simp [turn, hv, exec] at hn
    | raised hq => cases hq
  | leaveConnection hand exc => cases h (.close (.ok ())) rfl
  | join =>
    have hn := h .join rfl
    cases hc with
    | resting hq => cases hn
    | raised hq => cases hq
  | returned => exact Or.inl rfl
  | raised e => exact Or.inl rfl
  | killed => exact Or.inl rfl
  | _ => cases h (.advance (.ok ())) rfl

/-- A loop that has ended has left nothing open. -/
theorem left_of_gone (hr : Reachable (step threshold) init s) (hg : gone (s.consumers w).point = true) :
    s.world.unsettled w = none ∧ s.world.writesOf (.worker w) = [] := by
  have hdead : s.system.workers w = .dead := by
    change (s.consumers w).worker = .dead
    unfold Consumer.worker
    cases hp : (s.consumers w).point <;> first | rfl | (rw [hp] at hg; cases hg)
  have hrs := simulates.reachable hr
  have hw := (opened_of_reachable hrs).workers w
  rw [hdead] at hw
  exact ⟨relieved_of_reachable hrs w (by rw [hdead]; rfl),hw⟩

/-- The turns a loop takes between two states in which it has been told to
stop, what it handles there, and where it ends. In `waits` a call that raises
counts as going on: a call that waits for another transaction may be refused. -/
structure Stops (threshold : ℕ) (w : ℕ) (s : State) (t : List (State × Label)) (s' : State) :
    Prop where
  turns : t.countP (turnsOf w) ≤ 31
  handlers : ∀ x ∈ Visited t s', ∀ m p, (x.consumers w).inFlight = some (m,p) →
    ∃ p', (s.consumers w).inFlight = some (m,p')
  waits : (∀ a, proceeds a = true → step threshold s' (.turn w a) = none) →
    gone (s'.consumers w).point = true ∨
      ((s'.consumers w).point = .next ∧ s'.world.ready = [])
  left : gone (s'.consumers w).point = true →
    s'.world.unsettled w = none ∧ s'.world.writesOf (.worker w) = []
  returned : (s'.consumers w).point = .returned → (s'.consumers w).inFlight = none

/-- A loop at its place for the next message has settled the one before. -/
theorem settled_at_next (hr : Reachable (step threshold) init s)
    (hp : (s.consumers w).point = .next) : s.world.unsettled w = none := by
  have hidle : (s.consumers w).worker = .idle := by
    have hc := coherent_of_reachable hr w
    generalize s.consumers w = c at hp hc
    cases hc with
    | resting hq =>
      cases hp
      rfl
    | handling => cases hp
    | raised hq =>
      cases hp
      cases hq
  exact relieved_of_reachable (simulates.reachable hr) w
    ((congrArg relieved hidle : relieved (s.system.workers w) = _).trans rfl)

theorem joined_of_returned (hc : Coherent c) (hp : c.point = .returned) : c.inFlight = none := by
  cases hc with
  | resting hq => rfl
  | handling => cases hp
  | raised hq =>
    cases hp
    cases hq

/-- The invariant of a run in which the loop is told to stop. -/
theorem stopping_trail {t : List (State × Label)} (hr : Reachable (step threshold) init s)
    (hstop : (s.consumers w).stopping = true) (ht : Trail (step threshold) s t s') :
    (s'.consumers w).stopping = true ∧
      t.countP (turnsOf w)+turnsLeft (s'.consumers w) ≤ turnsLeft (s.consumers w) ∧
      ∀ x ∈ Visited t s', ∀ m p, (x.consumers w).inFlight = some (m,p) →
        ∃ p', (s.consumers w).inFlight = some (m,p') := by
  induction ht with
  | start =>
    refine ⟨hstop,by simp,fun x hx m p h => ?_⟩
    obtain rfl := List.mem_singleton.mp hx
    exact ⟨p,h⟩
  | @next t b b' l ht hstep ih =>
    obtain ⟨hb,hcount,hvisited⟩ := ih
    obtain ⟨t₀,ht₀⟩ := id hr
    obtain ⟨hb',hrank,hflight⟩ := stopping_step ⟨_,ht₀.trans ht⟩ hb hstep
    refine ⟨hb',?_,fun x hx m p h => ?_⟩
    · rw [List.countP_cons]
      omega
    · rcases List.mem_cons.mp hx with rfl | hx
      · obtain ⟨p',hp'⟩ := hflight m p h
        exact hvisited b List.mem_cons_self m p' hp'
      · exact hvisited x hx m p h

/-- A graceful stop. Once the stop event is set, a loop ends within a fixed
number of turns, starts no handler, and leaves nothing behind; only a loop that
waits for a message does not end before one comes. -/
theorem graceful_stop {t : List (State × Label)} (hr : Reachable (step threshold) init s)
    (hstop : (s.consumers w).stopping = true) (ht : Trail (step threshold) s t s') :
    Stops threshold w s t s' := by
  obtain ⟨t₀,ht₀⟩ := id hr
  have hr' : Reachable (step threshold) init s' := ⟨_,ht₀.trans ht⟩
  obtain ⟨-,hcount,hvisited⟩ := stopping_trail hr hstop ht
  have hbound := turnsLeft_le (coherent_of_reachable hr w)
  refine ⟨by omega,hvisited,fun h => ?_,left_of_gone hr',
    joined_of_returned (coherent_of_reachable hr' w)⟩
  refine waits_of_stuck (coherent_of_reachable hr' w) (settled_at_next hr') fun a ha => ?_
  exact Option.map_eq_none_iff.mp (h a ha)

theorem graceful_stop_sample :
    Stops 100 0 (reached signalRun) (path (step 100) (reached signalRun) leaveLabels)
        (reached (signalRun++leaveLabels)) ∧
      (reached (signalRun++leaveLabels)).world.ready.length = 1 := by
  have hrun : ((run (step 100) init (signalRun++leaveLabels)).isSome &&
      ((reached signalRun).consumers 0).stopping &&
      (reached (signalRun++leaveLabels)).world.ready.length == 1) = true := by decide +kernel
  simp only [Bool.and_eq_true, beq_iff_eq] at hrun
  obtain ⟨⟨hsome,hstop⟩,hready⟩ := hrun
  obtain ⟨hr,ht⟩ := trail_path_append hsome
  exact ⟨graceful_stop hr hstop ht,hready⟩

end Stopping

end DocPipeline.ConsumerLoop
