import DocPipeline.Progress

/-!
# No message is lost or made up

Every message that was published, sent in from outside or delivered twice by
the broker is in the queue, or with a live worker that is at work on it, or
has been acknowledged by the handler it was given to.
-/

set_option autoImplicit false

namespace DocPipeline.Conservation
open DocPipeline.Identifiers DocPipeline.Records DocPipeline.Database DocPipeline.Calls
open DocPipeline.Consumer DocPipeline.Routes DocPipeline.System DocPipeline.Moves
open DocPipeline.Effects DocPipeline.Publication DocPipeline.Exclusion DocPipeline.RetryLoop
open DocPipeline.Work DocPipeline.Progress LabelledRuns EffectProgram

def publishedBy : Phase → Multiset Message
  | .enqueue job _ => {⟨.json (retryPayload job),.worker⟩}
  | _ => 0

def publishedStage : Stage → Multiset Message
  | .enqueueJob job => {⟨.json (newJobPayload job),.api⟩}
  | _ => 0

def acks : Phase → Bool
  | .ackPoison | .ackDrop | .ackSuccess _ _ | .ackFailure => true
  | _ => false

def made : State × Label → Multiset Message
  | (s,.call w _ out) => match s.workers w with
    | .handling _ p => if Outcome.took out then publishedBy p else 0
    | _ => 0
  | (s,.serve r _ out) => match s.requests r with
    | some q => if Outcome.took out then publishedStage q.stage else 0
    | none => 0
  | (_,.inject body) => {⟨body,.outside⟩}
  | (s,.duplicate i) => (s.world.ready[i]?).elim 0 fun m => {m}
  | _ => 0

/-- The message a step settles for good, which is the one that its handler was
started with. The broker may have taken it back before. -/
def acked : State × Label → Multiset Message
  | (s,.call w _ out) => match s.workers w with
    | .handling m p =>
      if acks p && Outcome.took out && (s.world.unsettled w).isSome then {m} else 0
    | _ => 0
  | _ => 0

def inHand (σ : World) (w : ℕ) : Multiset Message := (σ.unsettled w).elim 0 fun m => {m}

def stock (W : Finset ℕ) (s : State) : Multiset Message :=
  ↑s.world.ready+∑ w ∈ W, inHand s.world w

def WorksOn (x : Worker) (m : Message) : Prop := x = .received m ∨ ∃ p, x = .handling m p

def Given (s : State) : Prop := ∀ w m, s.world.unsettled w = some m → WorksOn (s.workers w) m

section Balance
variable {threshold : ℕ} {s s' : State} {l : Label} {σ σ' : World} {w : ℕ} {m : Message}

theorem Given.step (h : Given s) (hrel : Relieved s) (hm : Move threshold s l s') : Given s' := by
  intro v m hv
  by_cases hat : workerAt l = some v
  · cases hm with
    | @deliver w i x hw hu hi =>
      obtain rfl := Option.some.inj hat
      simp only [Function.update_self, Option.some.injEq] at hv
      subst hv
      exact Or.inl (by simp [State.setWorker])
    | @begin w x hw =>
      obtain rfl := Option.some.inj hat
      rcases h w m hv with hx | ⟨p,hx⟩ <;> rw [hw] at hx <;> cases hx
      exact Or.inr ⟨start m.body,by simp [State.setWorker]⟩
    | @call w x p c k o out r σ hw hview he =>
      obtain rfl := Option.some.inj hat
      rcases h w m (effect_unsettled (exec_effect he) hv) with hx | ⟨q,hx⟩ <;> rw [hw] at hx <;>
        cases hx
      exact Or.inr ⟨k r,by simp [State.setWorker]⟩
    | @loop w x hw =>
      obtain rfl := Option.some.inj hat
      have hnone : s.world.unsettled w = none := hrel w (by rw [hw]; rfl)
      rw [show s.world.unsettled w = some m from hv] at hnone
      cases hnone
    | stop hw =>
      obtain rfl := Option.some.inj hat
      simp [State.endWorker, Tokens.requeue_unsettled_self] at hv
    | die hw =>
      obtain rfl := Option.some.inj hat
      simp [State.endWorker, Tokens.requeue_unsettled_self] at hv
    | lose hw hu =>
      obtain rfl := Option.some.inj hat
      simp [Tokens.requeue_unsettled_self] at hv
    | _ => cases hat
  · obtain ⟨hw,hu⟩ := frame_worker hm hat
    rw [hw]
    rw [hu] at hv
    exact h v m hv

theorem given_of_reachable (h : Reachable (step threshold) init s) : Given s :=
  h.invariant (fun w m hm => by cases hm)
    (fun _ _ _ hr hs hstep => hs.step (relieved_of_reachable hr) (step_move hstep))

def Balanced (σ σ' : World) (w : ℕ) (into out : Multiset Message) : Prop :=
  ↑σ'.ready+inHand σ' w+out = ↑σ.ready+inHand σ w+into

theorem balanced_same (hr : σ'.ready = σ.ready) (hu : σ'.unsettled w = σ.unsettled w) :
    Balanced σ σ' w 0 0 := by
  simp only [Balanced, inHand, hr, hu]

theorem balanced_deliver {i : ℕ} (hu : σ.unsettled w = none) (hi : σ.ready[i]? = some m) :
    Balanced σ { σ with
      ready := σ.ready.eraseIdx i
      unsettled := Function.update σ.unsettled w (some m) } w 0 0 := by
  obtain ⟨hlt,hget⟩ := List.getElem?_eq_some_iff.mp hi
  have hperm := List.getElem_cons_eraseIdx_perm hlt
  rw [hget] at hperm
  have hready : (↑σ.ready : Multiset Message) = m ::ₘ ↑(σ.ready.eraseIdx i) :=
    (Multiset.coe_eq_coe.mpr hperm).symm
  simp only [Balanced, inHand, hu, hready, Function.update_self, Option.elim]
  simp [← Multiset.singleton_add, add_comm]

theorem balanced_requeue (σ : World) (w : ℕ) : Balanced σ (σ.requeue (.worker w)) w 0 0 := by
  unfold Balanced inHand
  rw [Tokens.requeue_unsettled_self]
  cases hu : σ.unsettled w with
  | none => simp [World.requeue, hu]
  | some m => simp [World.requeue, hu, ← Multiset.cons_coe, ← Multiset.singleton_add, add_comm]

theorem balanced_publish (σ : World) (w : ℕ) (p : Proc) (payload : Json) :
    Balanced σ (σ.publish p payload) w
      {⟨.json payload,match p with | .worker _ => .worker | .request _ => .api⟩} 0 := by
  simp only [Balanced, World.publish, inHand, ← Multiset.coe_add, Multiset.coe_singleton, add_zero]
  exact add_right_comm _ _ _

theorem exec_took {p : Proc} {c : Call} {o : Oracle} {out : Outcome} {r : Except Exc c.Resp}
    (hc : c.onSession = false) (he : exec σ p o c out = some (r,σ')) :
    (Outcome.took out = true ∧ ∃ x, serve σ p o c = some (x,σ')) ∨
      (Outcome.took out = false ∧ σ' = σ) := by
  cases out with
  | ok => exact Or.inl ⟨rfl,r,he⟩
  | raises f =>
    cases he
    exact Or.inr ⟨rfl,by simp [World.abandon, hc]⟩
  | raisesAfter f =>
    simp only [exec] at he
    split at he
    · obtain ⟨x,hx,heq⟩ := Option.map_eq_some_iff.mp he
      cases heq
      exact Or.inl ⟨rfl,x.1,hx⟩
    · cases he

theorem balanced_ack (hgiven : ∀ x, σ.unsettled w = some x → x = m) :
    Balanced σ (σ.settle (.worker w)) w 0 (if (σ.unsettled w).isSome then {m} else 0) := by
  simp only [Balanced, World.settle, inHand, Function.update_self]
  cases hu : σ.unsettled w with
  | none => simp
  | some x =>
    obtain rfl := hgiven x hu
    simp

/-- A call of the handler. -/
theorem balanced_call {p : Phase} {c : Call} {k : Except Exc c.Resp → Phase} {o : Oracle}
    {out : Outcome} {r : Except Exc c.Resp} (hv : view p = .calls c k)
    (he : exec σ (.worker w) o c out = some (r,σ')) (hgiven : ∀ x, σ.unsettled w = some x → x = m) :
    Balanced σ σ' w (if Outcome.took out then publishedBy p else 0)
      (if acks p && Outcome.took out && (σ.unsettled w).isSome then {m} else 0) := by
  have hack : ∀ {q : Phase} {k : Except Exc Unit → Phase} {r : Except Exc Unit},
      view q = .calls .ack k → exec σ (.worker w) o .ack out = some (r,σ') → acks q = true →
      publishedBy q = 0 → Balanced σ σ' w (if Outcome.took out then publishedBy q else 0)
        (if acks q && Outcome.took out && (σ.unsettled w).isSome then {m} else 0) := by
    intro q k r hv he hq hp
    rcases exec_took rfl he with ⟨htook,x,hx⟩ | ⟨htook,rfl⟩
    · cases hx
      simpa [hq, hp, htook] using balanced_ack hgiven
    · simpa [hq, hp, htook] using balanced_same rfl rfl
  have hother : c ≠ .ack → c ≠ .nack → (∀ payload, c ≠ .enqueue payload) →
      Balanced σ σ' w 0 0 := fun ha hn hq =>
    balanced_same ((exec_effect he).ready hq hn) (congrFun ((exec_effect he).unsettled ha hn) w)
  cases p with
  | returned => cases hv
  | raised d e => cases hv
  | ackPoison => cases hv; exact hack rfl he rfl rfl
  | ackDrop => cases hv; exact hack rfl he rfl rfl
  | ackSuccess job started => cases hv; exact hack (q := .ackSuccess job started) rfl he rfl rfl
  | ackFailure => cases hv; exact hack rfl he rfl rfl
  | nack =>
    cases hv
    rcases exec_took rfl he with ⟨htook,x,hx⟩ | ⟨htook,rfl⟩
    · cases hx
      simpa [acks, publishedBy] using balanced_requeue σ w
    · simpa [acks, publishedBy] using balanced_same rfl rfl
  | enqueue job started =>
    cases hv
    rcases exec_took rfl he with ⟨htook,x,hx⟩ | ⟨htook,rfl⟩
    · cases hx
      simpa [acks, publishedBy, htook] using balanced_publish σ w (.worker w) (retryPayload job)
    · simpa [acks, publishedBy, htook] using balanced_same rfl rfl
  | _ => cases hv; simpa [acks, publishedBy] using hother (by simp) (by simp) (by simp)

theorem stock_moved {W : Finset ℕ} {into out : Multiset Message} (hw : w ∈ W)
    (hother : ∀ v, v ≠ w → s'.world.unsettled v = s.world.unsettled v)
    (hb : Balanced s.world s'.world w into out) : stock W s'+out = stock W s+into := by
  have hsum := sum_moved (f := inHand s.world) (g := inHand s'.world) hw
    (fun v hv => by rw [inHand, inHand, hother v hv])
  unfold Balanced at hb
  refine add_right_cancel (b := inHand s.world w) ?_
  calc stock W s'+out+inHand s.world w
      = ↑s'.world.ready+out+(∑ v ∈ W, inHand s'.world v+inHand s.world w) := by
        unfold stock
        abel
    _ = ↑s'.world.ready+out+(∑ v ∈ W, inHand s.world v+inHand s'.world w) := by rw [hsum]
    _ = (↑s'.world.ready+inHand s'.world w+out)+∑ v ∈ W, inHand s.world v := by abel
    _ = (↑s.world.ready+inHand s.world w+into)+∑ v ∈ W, inHand s.world v := by rw [hb]
    _ = stock W s+into+inHand s.world w := by
        unfold stock
        abel

theorem stock_ready {W : Finset ℕ} {into : Multiset Message}
    (hu : s'.world.unsettled = s.world.unsettled)
    (hr : (↑s'.world.ready : Multiset Message) = ↑s.world.ready+into) :
    stock W s'+0 = stock W s+into := by
  have hhands : inHand s'.world = inHand s.world := funext fun v => by rw [inHand, inHand, hu]
  simp only [stock, hr, hhands, add_zero]
  exact add_right_comm _ _ _

/-- A call of a request. -/
theorem ready_served {q : ℕ} {x : Stage} {c : Call} {k : Except Exc c.Resp → Stage} {o : Oracle}
    {out : Outcome} {r : Except Exc c.Resp} (hv : viewStage threshold x = .calls c k)
    (he : exec σ (.request q) o c out = some (r,σ')) : σ'.unsettled = σ.unsettled ∧
      (↑σ'.ready : Multiset Message) = ↑σ.ready+
        if Outcome.took out then publishedStage x else 0 := by
  have heff := exec_effect he
  have hack : c ≠ .ack := by
    rintro rfl
    cases x <;> cases hv
  have hnack : c ≠ .nack := by
    rintro rfl
    cases x <;> cases hv
  refine ⟨heff.unsettled hack hnack,?_⟩
  by_cases hc : ∃ payload, c = .enqueue payload
  · obtain ⟨payload,rfl⟩ := hc
    obtain ⟨job,rfl,rfl⟩ := viewStage_enqueue hv
    rcases exec_took rfl he with ⟨htook,y,hy⟩ | ⟨htook,rfl⟩
    · cases hy
      simp [htook, publishedStage, World.publish, ← Multiset.coe_add]
    · simp [htook]
  · have hnone : publishedStage x = 0 := by
      cases x <;> first | rfl | skip
      cases hv
      exact absurd ⟨_,rfl⟩ hc
    rw [hnone, ite_self, add_zero]
    exact congrArg _ (heff.ready (fun payload h => hc ⟨payload,h⟩) hnack)

theorem stock_step {W : Finset ℕ} (hgiven : Given s) (hW : ∀ w, workerAt l = some w → w ∈ W)
    (hm : Move threshold s l s') : stock W s'+acked (s,l) = stock W s+made (s,l) := by
  have hframe : ∀ {w : ℕ}, workerAt l = some w →
      ∀ v, v ≠ w → s'.world.unsettled v = s.world.unsettled v := fun hw v hv =>
    (frame_worker hm (by rw [hw]; exact fun h => hv (Option.some.inj h).symm)).2
  cases hm with
  | deliver hw hu hi => exact stock_moved (hW _ rfl) (hframe rfl) (balanced_deliver hu hi)
  | begin hw => exact stock_moved (hW _ rfl) (hframe rfl) (balanced_same rfl rfl)
  | @call w m p c k o out r σ hw hv he =>
    have hx : ∀ x, s.world.unsettled w = some x → x = m := by
      intro x hx
      rcases hgiven w x hx with hx | ⟨q,hx⟩ <;> rw [hw] at hx <;> cases hx
      rfl
    refine stock_moved (hW w rfl) (hframe rfl) ?_
    simp only [made, acked, hw]
    have hb := balanced_call hv he hx
    exact hb
  | loop hw => exact stock_moved (hW _ rfl) (hframe rfl) (balanced_same rfl rfl)
  | stop hw =>
    exact stock_moved (hW _ rfl) (hframe rfl) (balanced_requeue (s.world.discard _) _)
  | die hw =>
    exact stock_moved (hW _ rfl) (hframe rfl) (balanced_requeue (s.world.discard _) _)
  | lose hw hu => exact stock_moved (hW _ rfl) (hframe rfl) (balanced_requeue s.world _)
  | @duplicate i m hi =>
    refine stock_ready rfl ?_
    simp [made, hi, ← Multiset.cons_coe, ← Multiset.singleton_add, add_comm]
  | inject body =>
    refine stock_ready rfl ?_
    simp [made, ← Multiset.cons_coe, ← Multiset.singleton_add, add_comm]
  | serve hq hv he =>
    obtain ⟨hunsettled,hready⟩ := ready_served hv he
    refine stock_ready hunsettled ?_
    simp only [made, hq]
    exact hready
  | _ => exact stock_ready rfl (add_zero _).symm

/-- No message is lost or made up: what has come in is in the queue, or with a
live worker that is at work on it, or has been acknowledged by the handler it
was given to. -/
theorem messages_conserved {t : List (State × Label)} (ht : Trail (step threshold) init t s) :
    (↑s.world.ready+∑ w ∈ workersOf t, inHand s.world w)+(t.map acked).sum = (t.map made).sum ∧
      ∀ w m, s.world.unsettled w = some m → w ∈ workersOf t ∧ WorksOn (s.workers w) m := by
  refine ⟨?_,fun w m hm => ⟨?_,given_of_reachable ⟨_,ht⟩ w m hm⟩⟩
  · have hbalance := ht.balance
      (fun s l s' hr hok hs => stock_step (given_of_reachable hr) hok (step_move hs))
      (fun x hx w => mem_workersOf hx)
    have hzero : stock (workersOf t) init = 0 := by simp [stock, inHand, init]
    rw [hzero, zero_add] at hbalance
    exact hbalance
  · by_contra hw
    have hframe := ht.frame (fun s => s.world.unsettled w) (fun l => workerAt l = some w)
      (fun s l s' hl hs => (frame_worker (step_move hs) hl).2)
      (fun x hx h => hw (mem_workersOf hx h))
    rw [show s.world.unsettled w = none from hframe] at hm
    cases hm

end Balance

theorem messages_conserved_sample :
    (↑(after retryRun).world.ready+
        ∑ w ∈ workersOf (path (step 100) init retryRun), inHand (after retryRun).world w)+
      ((path (step 100) init retryRun).map acked).sum =
        ((path (step 100) init retryRun).map made).sum :=
  (messages_conserved (trail_path retryRun (by decide +kernel))).1

end DocPipeline.Conservation
