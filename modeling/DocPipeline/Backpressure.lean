import DocPipeline.Publication
import Mathlib.Data.Set.Card

/-!
# How far the queue can grow

The depth is read in one call of `JobService.create` and the message is
published in a later one, and workers return or republish messages without
looking at the depth. Every message that can still become ready is counted
beforehand: with the request that has passed its check, or with the worker
that holds it. The sum of the two counts and the ready messages grows only
when a request passes its check, and then the queue is below its threshold.
-/

set_option autoImplicit false

namespace DocPipeline.Backpressure
open DocPipeline.Identifiers DocPipeline.Records DocPipeline.Database DocPipeline.Calls
open DocPipeline.Consumer DocPipeline.Routes DocPipeline.System DocPipeline.Moves
open DocPipeline.Effects DocPipeline.Answers DocPipeline.Transactions DocPipeline.Pending
open DocPipeline.Stances DocPipeline.Engagement DocPipeline.Knowledge DocPipeline.Ledger
open DocPipeline.Exclusion DocPipeline.Publication LabelledRuns EffectProgram

/-- A request between its read of the queue depth and the end of `enqueue`. -/
def admitted : Option Request → Bool
  | some ⟨_,.insertJob _ _⟩ | some ⟨_,.commitJob _⟩ | some ⟨_,.enqueueJob _⟩ => true
  | _ => false

def republishes (w : ℕ) (x : State × Label) : Bool :=
  match x.2, x.1.workers w with
  | .call v _ out, .handling _ (.enqueue _ _) => v = w && Outcome.took out
  | _, _ => false

def takesMessage (w : ℕ) : Label → Bool
  | .deliver v _ => v = w
  | _ => false

def republished (w : ℕ) : List (State × Label) → Bool
  | [] => false
  | x::t => !takesMessage w x.2 && (republishes w x || republished w t)

/-- The broker neither duplicates a message nor takes it away from a live
worker, nobody else publishes, and no worker dies between its retry message
and its ack. -/
def Orderly : List (State × Label) → Prop
  | [] => True
  | (s,l)::t => Orderly t ∧ match l with
    | .duplicate _ | .inject _ | .lose _ => False
    | .die w => (s.world.unsettled w).isSome → republished w t = false
    | _ => True

def Carries (db : Tables) (u : Option Message) : Phase → Prop
  | .requeue job _ _ => u ≠ none ∨ Finished db job
  | .fail job _ _ => u ≠ none ∨ Finished db job
  | .commit .dropping | .commit .claiming | .close .dropping none | .close .claiming none => u = none
  | .returned => u = none
  | .rollback .dropping _ | .rollback .claiming _ => True
  | .close .dropping (some _) | .close .claiming (some _) => True
  | .rollback (.requeued _ _) _ | .rollback (.failed _ _) _ => True
  | .commit (.failed _ _) | .close (.failed _ _) _ | .close (.requeued _ _) (some _) => True
  | .ackFailure | .raised _ _ => True
  | _ => u ≠ none

def CarriesWorker (db : Tables) (u : Option Message) : Worker → Prop
  | .handling _ p => Carries db u p
  | .received _ => u ≠ none
  | _ => u = none

def late : Worker → Bool
  | .handling _ .ackFailure | .handling _ .returned => true
  | .handling _ (.raised _ _) => true
  | .idle | .dead => true
  | _ => false

section Own
variable {σ σ' : World} {w : ℕ} {o : Oracle} {out : Outcome} {p : Phase} {c : Call}
  {k : Except Exc c.Resp → Phase} {r : Except Exc c.Resp} {m : Message}

theorem carries_onFailure {db : Tables} {u : Option Message} {job : Uuid} (started : JobRow) (e : Exc)
    (h : u ≠ none ∨ Finished db job) : Carries db u (onFailure job started e) := by
  unfold onFailure
  split <;> exact h

theorem carries_leave {db : Tables} {u : Option Message} {site : Site} {e e' : Option Exc}
    (h : Carries db u (.close site e)) (he : e' = e ∨ ∃ x, e' = some x) :
    Carries db u (leave site e') := by
  rcases he with rfl | ⟨x,rfl⟩
  · cases site with
    | processed job started =>
      cases e' with
      | none => exact h
      | some x => exact carries_onFailure started x (Or.inl h)
    | requeued job started =>
      rcases e' with _ | x
      · exact h
      · cases x <;> trivial
    | failed job started =>
      rcases e' with _ | x
      · trivial
      · cases x <;> trivial
    | _ => cases e' <;> first | exact h | trivial
  · cases site with
    | processed job started =>
      have hu : u ≠ none := by cases e <;> exact h
      exact carries_onFailure started x (Or.inl hu)
    | requeued job started => cases x <;> trivial
    | failed job started => cases x <;> trivial
    | _ => trivial

theorem settle_self (σ : World) (w : ℕ) : (σ.settle (.worker w)).unsettled w = none := by
  simp [World.settle]

theorem requeue_self (σ : World) (w : ℕ) : (σ.requeue (.worker w)).unsettled w = none := by
  unfold World.requeue
  cases hu : σ.unsettled w <;> simp [hu]

/-- A successful ack or nack settles the message. -/
theorem settled_ok {c : Call} (hc : c = .ack ∨ c = .nack) {r : Except Exc c.Resp}
    (hr : ∃ v, r = .ok v) (he : exec σ (.worker w) o c out = some (r,σ')) :
    σ'.unsettled w = none := by
  obtain ⟨v,rfl⟩ := hr
  obtain ⟨rfl,hs⟩ := exec_ok he
  rcases hc with rfl | rfl
  · cases hs
    exact settle_self σ w
  · cases hs
    exact requeue_self σ w

theorem carries_call (hh : Holds σ.db (stance p)) (h : Carries σ.db (σ.unsettled w) p)
    (hv : view p = .calls c k) (he : exec σ (.worker w) o c out = some (r,σ')) :
    Carries σ'.db (σ'.unsettled w) (k r) := by
  have heff := exec_effect he
  have hsame : c ≠ .ack → c ≠ .nack → σ'.unsettled w = σ.unsettled w := by
    intro ha hn
    rw [heff.unsettled ha hn]
  cases p with
  | ackPoison | ackDrop | ackFailure =>
    cases hv
    cases r with
    | ok v => exact settled_ok (Or.inl rfl) ⟨v,rfl⟩ he
    | error e => trivial
  | nack =>
    cases hv
    cases r with
    | ok v => exact settled_ok (Or.inr rfl) ⟨v,rfl⟩ he
    | error e => trivial
  | ackSuccess job started =>
    cases hv
    cases r with
    | ok v => exact settled_ok (Or.inl rfl) ⟨v,rfl⟩ he
    | error e =>
      refine carries_onFailure started e (Or.inr ?_)
      rw [heff.db (by simp)]
      exact hh.2
  | requeue job started exc =>
    cases hv
    rw [hsame (by simp) (by simp)]
    rcases exec_updateStatus he with ⟨old,now,again,-,rfl,-,hget,hst,-⟩ | ⟨-,rfl,-⟩ | ⟨f,-,rfl,-⟩
    · rcases h with h | ⟨row,hrow,hact⟩
      · exact h
      · -- a finished job is not moved back to the queue
        obtain rfl := Option.some.inj (hget.symm.trans hrow)
        rw [hst] at hact
        cases hact
    · trivial
    · trivial
  | fail job started exc =>
    cases hv
    cases r <;> trivial
  | lookup job =>
    cases hv
    rw [hsame (by simp) (by simp)]
    rcases r with e | _ | row
    · exact h
    · exact h
    · dsimp only
      split <;> exact h
  | claim job =>
    cases hv
    rw [hsame (by simp) (by simp)]
    rcases r with e | row
    · cases e <;> trivial
    · exact h
  | processJob | processDocument =>
    cases hv
    rw [hsame (by simp) (by simp)]
    rcases r with e | _ | row <;> exact h
  | enqueue job started =>
    cases hv
    rcases r with e | v
    · cases e <;> trivial
    · trivial
  | commit site =>
    cases hv
    rw [hsame (by simp) (by simp)]
    cases site <;> cases r <;> first | exact h | trivial
  | rollback site e =>
    cases hv
    rw [hsame (by simp) (by simp)]
    cases site <;> cases r <;> exact h
  | close site e =>
    cases hv
    rw [hsame (by simp) (by simp), heff.db (by simp)]
    cases r with
    | ok v => exact carries_leave h (Or.inl rfl)
    | error e' => exact carries_leave h (Or.inr ⟨e',rfl⟩)
  | returned => cases hv
  | raised d e => cases hv
  | _ =>
    cases hv
    rw [hsame (by simp) (by simp)]
    cases r <;> exact h

theorem exec_enqueue {q : Proc} {payload : Json} {r : Except Exc Unit}
    (h : exec σ q o (.enqueue payload) out = some (r,σ')) :
    (Outcome.took out = true ∧ σ' = σ.publish q payload) ∨
      (Outcome.took out = false ∧ σ' = σ) := by
  cases out <;> cases h
  · exact Or.inl ⟨rfl,rfl⟩
  · exact Or.inr ⟨rfl,rfl⟩
  · exact Or.inl ⟨rfl,rfl⟩

theorem exec_nack {r : Except Exc Unit} (h : exec σ (.worker w) o .nack out = some (r,σ')) :
    σ' = σ.requeue (.worker w) ∨ σ' = σ := by
  cases out <;> cases h
  · exact Or.inl rfl
  · exact Or.inr rfl
  · exact Or.inl rfl

theorem length_publish (q : Proc) (payload : Json) :
    (σ.publish q payload).ready.length = σ.ready.length+1 := by
  simp [World.publish]

theorem length_requeue {m : Message} (h : σ.unsettled w = some m) :
    (σ.requeue (.worker w)).ready.length = σ.ready.length+1 := by
  simp [World.requeue, h]

theorem late_call (h : late (.handling m p) = true) (hv : view p = .calls c k)
    (r : Except Exc c.Resp) : late (.handling m (k r)) = true := by
  cases p with
  | ackFailure =>
    cases hv
    cases r <;> rfl
  | returned => cases hv
  | raised d e => cases hv
  | _ => cases h

end Own

section Sets
variable {α : Type} {X Y : Set α} {i : α}

theorem encard_le_of_same (h : ∀ j, j ≠ i → (j ∈ Y ↔ j ∈ X)) (hi : i ∈ Y → i ∈ X) :
    Y.encard ≤ X.encard := by
  refine Set.encard_le_encard (fun j hj => ?_)
  by_cases hji : j = i
  · subst hji
    exact hi hj
  · exact (h j hji).mp hj

theorem encard_add_one (h : ∀ j, j ≠ i → (j ∈ Y ↔ j ∈ X)) (hX : i ∈ X) (hY : i ∉ Y) :
    Y.encard+1 = X.encard := by
  have hXY : X = insert i Y := by
    ext j
    by_cases hji : j = i
    · subst hji
      simp [hX]
    · simp [hji, h j hji]
  rw [hXY, Set.encard_insert_of_notMem hY]

end Sets

section Steps
variable {threshold : ℕ} {s s' : State} {l : Label} {t : List (State × Label)}

structure Afloat (t : List (State × Label)) (s : State) : Prop where
  carries : ∀ w, CarriesWorker s.world.db (s.world.unsettled w) (s.workers w)
  late : ∀ w, republished w t = true → late (s.workers w) = true

theorem finished_step (hs : Sound s) (hm : Move threshold s l s') {job : Uuid}
    (h : Finished s.world.db job) : Finished s'.world.db job := by
  obtain ⟨row,hrow,hact⟩ := h
  obtain ⟨row',hrow',rfl | hr⟩ := step_evolve hs hm hrow
  · exact ⟨row',hrow',hact⟩
  · rw [active_of_edge hr.edge] at hact
    cases hact

theorem CarriesWorker.mono {db db' : Tables} {u : Option Message} {x : Worker}
    (h : CarriesWorker db u x) (hf : ∀ job, Finished db job → Finished db' job) :
    CarriesWorker db' u x := by
  cases x with
  | handling m p =>
    cases p with
    | requeue job started exc => exact h.imp_right (hf job)
    | fail job started exc => exact h.imp_right (hf job)
    | commit site => cases site <;> exact h
    | rollback site e => cases site <;> exact h
    | close site e => cases site <;> cases e <;> exact h
    | _ => exact h
  | _ => exact h

theorem carries_start (db : Tables) {u : Option Message} (hu : u ≠ none) (body : Body) :
    Carries db u (start body) := by
  unfold start
  split
  · trivial
  · exact hu
  · exact hu

theorem carries_endWorker (w : ℕ) :
    CarriesWorker (s.endWorker w).world.db ((s.endWorker w).world.unsettled w)
      ((s.endWorker w).workers w) := by
  have hw : (s.endWorker w).workers w = .dead := by simp [State.endWorker, State.setWorker]
  rw [hw]
  exact requeue_self _ w

theorem carries_step (h : Afloat t s) (hs : Sound s) (hm : Move threshold s l s')
    (hlose : ∀ w, l ≠ .lose w) (w : ℕ) :
    CarriesWorker s'.world.db (s'.world.unsettled w) (s'.workers w) := by
  have hw := h.carries w
  by_cases hat : workerAt l = some w
  · cases hm with
    | deliver hi hu hr =>
      obtain rfl := Option.some.inj hat
      simp [State.setWorker, CarriesWorker]
    | begin hr =>
      obtain rfl := Option.some.inj hat
      rw [hr] at hw
      simpa [State.setWorker, CarriesWorker] using carries_start _ hw _
    | @call v m p c k o out r σ hp hv he =>
      obtain rfl := Option.some.inj hat
      have hh := hs.engaged.holds v
      rw [hp] at hw hh
      simp only [State.setWorker, Function.update_self]
      have hnew := carries_call hh hw hv he
      exact hnew
    | loop hp =>
      obtain rfl := Option.some.inj hat
      rw [hp] at hw
      simp only [State.setWorker, Function.update_self]
      exact hw
    | stop hx =>
      obtain rfl := Option.some.inj hat
      exact carries_endWorker _
    | die hx =>
      obtain rfl := Option.some.inj hat
      exact carries_endWorker _
    | lose hx hu => exact absurd rfl (hlose _)
    | _ => cases hat
  · obtain ⟨h₁,h₂⟩ := frame_worker hm hat
    rw [h₁, h₂]
    exact hw.mono (fun job => finished_step hs hm)

/-- Only the call of `enqueue` and the delivery of a message change it. -/
theorem republished_same {w : ℕ} (hd : takesMessage w l = false)
    (hr : republishes w (s,l) = false) : republished w ((s,l)::t) = republished w t := by
  simp [republished, hd, hr]

theorem republished_other {w : ℕ} (hat : workerAt l ≠ some w) :
    republished w ((s,l)::t) = republished w t := by
  cases l with
  | deliver v i =>
    have hv : v ≠ w := fun h => hat (congrArg some h)
    simp [republished, takesMessage, republishes, hv]
  | call v o out =>
    have hv : v ≠ w := fun h => hat (congrArg some h)
    refine republished_same rfl ?_
    unfold republishes
    split
    · rename_i heq _
      cases heq
      simp [hv]
    · rfl
  | _ => simp [republished, takesMessage, republishes]

theorem late_step (h : Afloat t s) (hm : Move threshold s l s') (w : ℕ)
    (hr : republished w ((s,l)::t) = true) : late (s'.workers w) = true := by
  by_cases hat : workerAt l = some w
  · have hd : takesMessage w l = false := by
      simp only [republished, Bool.and_eq_true, Bool.not_eq_true'] at hr
      exact hr.1
    have hcases : republishes w (s,l) = true ∨ republished w t = true := by
      simpa [republished, hd] using hr
    cases hm with
    | deliver hi hu hx =>
      obtain rfl := Option.some.inj hat
      simp [takesMessage] at hd
    | begin hx =>
      obtain rfl := Option.some.inj hat
      have hl := h.late _ (hcases.resolve_left (by simp [republishes]))
      rw [hx] at hl
      cases hl
    | @call _ m p c k o out r σ hp hv he =>
      obtain rfl := Option.some.inj hat
      simp only [State.setWorker, Function.update_self]
      rcases hcases with hc | hc
      · cases p with
        | enqueue job started =>
          cases hv
          rcases r with e | v
          · cases e <;> rfl
          · rfl
        | _ => simp [republishes, hp] at hc
      · have hl := h.late _ hc
        rw [hp] at hl
        exact late_call hl hv r
    | loop hp =>
      obtain rfl := Option.some.inj hat
      simp [State.setWorker, late]
    | stop hx =>
      obtain rfl := Option.some.inj hat
      simp [State.endWorker, State.setWorker, late]
    | die hx =>
      obtain rfl := Option.some.inj hat
      simp [State.endWorker, State.setWorker, late]
    | lose hx hu =>
      exact h.late w (hcases.resolve_left (by simp [republishes]))
    | _ => cases hat
  · rw [(frame_worker hm hat).1]
    exact h.late w (by rwa [republished_other hat] at hr)

def holding (t : List (State × Label)) (s : State) (w : ℕ) : Prop :=
  (s.world.unsettled w).isSome = true ∧ republished w t = false

noncomputable def load (t : List (State × Label)) (s : State) : ℕ∞ :=
  s.world.ready.length+{r | admitted (s.requests r) = true}.encard+{w | holding t s w}.encard

theorem holding_other (hm : Move threshold s l s') {w : ℕ} (hat : workerAt l ≠ some w) :
    holding ((s,l)::t) s' w ↔ holding t s w := by
  rw [holding, holding, republished_other hat, (frame_worker hm hat).2]

theorem holdings_eq (hm : Move threshold s l s') (hat : workerAt l = none) :
    {w | holding ((s,l)::t) s' w} = {w | holding t s w} := by
  ext w
  exact holding_other hm (by simp [hat])

theorem admitted_eq (hm : Move threshold s l s') (hat : requestAt l = none) :
    {r | admitted (s'.requests r) = true} = {r | admitted (s.requests r) = true} := by
  ext r
  simp [frame_request hm (q := r) (by simp [hat])]

/-- A worker gives its message back to the queue. -/
theorem load_return (hm : Move threshold s l s') {w : ℕ} (hat : workerAt l = some w)
    (hreq : requestAt l = none) (hh : holding t s w) (hno : ¬ holding ((s,l)::t) s' w)
    (hready : s'.world.ready.length = s.world.ready.length+1) :
    load ((s,l)::t) s' = load t s := by
  have hcard := encard_add_one (X := {w | holding t s w}) (Y := {w | holding ((s,l)::t) s' w})
    (i := w) (fun v hv => holding_other hm (by rw [hat]; simpa using hv.symm)) hh hno
  rw [load, load, admitted_eq hm hreq, ← hcard, hready]
  push_cast
  ring

/-- A worker takes a message off the queue. -/
theorem load_take (hm : Move threshold s l s') {w : ℕ} (hat : workerAt l = some w)
    (hreq : requestAt l = none) (hno : ¬ holding t s w) (hh : holding ((s,l)::t) s' w)
    (hready : s.world.ready.length = s'.world.ready.length+1) :
    load ((s,l)::t) s' = load t s := by
  have hcard := encard_add_one (X := {w | holding ((s,l)::t) s' w}) (Y := {w | holding t s w})
    (i := w) (fun v hv => (holding_other hm (by rw [hat]; simpa using hv.symm)).symm) hh hno
  rw [load, load, admitted_eq hm hreq, ← hcard, hready]
  push_cast
  ring

/-- A request publishes its message. -/
theorem load_publish (hm : Move threshold s l s') {q : ℕ} (hat : requestAt l = some q)
    (hwork : workerAt l = none) (hh : admitted (s.requests q) = true)
    (hno : admitted (s'.requests q) = false)
    (hready : s'.world.ready.length = s.world.ready.length+1) :
    load ((s,l)::t) s' = load t s := by
  have hcard := encard_add_one (X := {r | admitted (s.requests r) = true})
    (Y := {r | admitted (s'.requests r) = true}) (i := q)
    (fun v hv => by simp [frame_request hm (q := v) (by rw [hat]; simpa using hv.symm)]) hh
    (by simp [hno])
  rw [load, load, holdings_eq hm hwork, ← hcard, hready]
  push_cast
  ring

/-- A step of a request that leaves the queue alone. -/
theorem load_request (hm : Move threshold s l s') {q : ℕ} (hat : requestAt l = some q)
    (hwork : workerAt l = none)
    (hh : admitted (s'.requests q) = true → admitted (s.requests q) = true)
    (hready : s'.world.ready.length = s.world.ready.length) :
    load ((s,l)::t) s' ≤ load t s := by
  have hcard := encard_le_of_same (X := {r | admitted (s.requests r) = true})
    (Y := {r | admitted (s'.requests r) = true}) (i := q)
    (fun v hv => by simp [frame_request hm (q := v) (by rw [hat]; simpa using hv.symm)]) hh
  rw [load, load, holdings_eq hm hwork, hready]
  gcongr

/-- A step of a worker that leaves the queue alone. -/
theorem load_worker (hm : Move threshold s l s') {w : ℕ} (hat : workerAt l = some w)
    (hreq : requestAt l = none) (hh : holding ((s,l)::t) s' w → holding t s w)
    (hready : s'.world.ready.length = s.world.ready.length) :
    load ((s,l)::t) s' ≤ load t s := by
  have hcard := encard_le_of_same (X := {w | holding t s w}) (Y := {w | holding ((s,l)::t) s' w})
    (i := w) (fun v hv => holding_other hm (by rw [hat]; simpa using hv.symm)) hh
  rw [load, load, admitted_eq hm hreq, hready]
  gcongr

theorem republished_false (h : Afloat t s) {w : ℕ} {x : Worker} (hw : s.workers w = x)
    (hx : late x = false) : republished w t = false := by
  by_contra hr
  have := h.late w (by simpa using hr)
  rw [hw, hx] at this
  cases this

/-- A call of the handler. -/
theorem load_call (h : Afloat t s) {w : ℕ} {o : Oracle} {out : Outcome}
    (hm : Move threshold s (.call w o out) s') : load ((s,.call w o out)::t) s' ≤ load t s := by
  have hm₀ := hm
  cases hm with
  | @call _ m p c k _ _ r σ hp hv he =>
    have heff := exec_effect he
    have hcar := h.carries w
    rw [hp] at hcar
    by_cases hq : ∃ payload, c = .enqueue payload
    · obtain ⟨payload,rfl⟩ := hq
      obtain ⟨job,started,rfl,-⟩ := view_enqueue hv
      have hrep := republished_false h hp rfl
      rcases exec_enqueue he with ⟨htook,hσ⟩ | ⟨htook,hσ⟩
      · refine (load_return hm₀ rfl rfl ⟨?_,hrep⟩ ?_ ?_).le
        · exact Option.isSome_iff_ne_none.mpr hcar
        · rintro ⟨-,hno⟩
          simp [republished, takesMessage, republishes, hp, htook] at hno
        · change σ.ready.length = _
          rw [hσ, length_publish]
      · refine load_worker hm₀ rfl rfl ?_ ?_
        · rintro ⟨hu,-⟩
          change (σ.unsettled w).isSome = true at hu
          rw [hσ] at hu
          exact ⟨hu,hrep⟩
        · change σ.ready.length = _
          rw [hσ]
    · have hrep : republished w ((s,.call w o out)::t) = republished w t := by
        refine republished_same rfl ?_
        cases p with
        | enqueue job started =>
          cases hv
          exact absurd ⟨_,rfl⟩ hq
        | _ => simp [republishes, hp]
      have hkeep : (σ.unsettled w).isSome = true → (s.world.unsettled w).isSome = true := by
        intro hu
        obtain ⟨x,hx⟩ := Option.isSome_iff_exists.mp hu
        rw [effect_unsettled heff hx]
        rfl
      by_cases hn : c = .nack
      · subst hn
        have hphase : p = .nack := by cases p <;> first | rfl | cases hv
        subst hphase
        obtain ⟨m',hu⟩ := Option.ne_none_iff_exists'.mp hcar
        rcases exec_nack he with hσ | hσ
        · refine (load_return hm₀ rfl rfl ⟨by simp [hu],republished_false h hp rfl⟩ ?_ ?_).le
          · rintro ⟨hu',-⟩
            change (σ.unsettled w).isSome = true at hu'
            rw [hσ, requeue_self] at hu'
            cases hu'
          · change σ.ready.length = _
            rw [hσ, length_requeue hu]
        · refine load_worker hm₀ rfl rfl ?_ ?_
          · rintro ⟨hu',hno⟩
            exact ⟨hkeep hu',by rwa [hrep] at hno⟩
          · change σ.ready.length = _
            rw [hσ]
      · refine load_worker hm₀ rfl rfl ?_ ?_
        · rintro ⟨hu,hno⟩
          exact ⟨hkeep hu,by rwa [hrep] at hno⟩
        · exact congrArg List.length (heff.ready (fun payload hc => hq ⟨payload,hc⟩) hn)

theorem load_deliver {w i : ℕ} (hm : Move threshold s (.deliver w i) s') :
    load ((s,.deliver w i)::t) s' = load t s := by
  have hm₀ := hm
  cases hm with
  | deliver hw hu hi =>
    have hlt : i < s.world.ready.length := (List.getElem?_eq_some_iff.mp hi).1
    refine load_take hm₀ rfl rfl ?_ ⟨by simp,by simp [republished, takesMessage]⟩ ?_
    · rintro ⟨hx,-⟩
      rw [hu] at hx
      cases hx
    · change _ = (s.world.ready.eraseIdx i).length+1
      rw [List.length_eraseIdx_of_lt hlt]
      omega

/-- A worker ends whose message has not been published again. -/
theorem load_end {w : ℕ} (hm : Move threshold s l (s.endWorker w)) (hat : workerAt l = some w)
    (hreq : requestAt l = none)
    (hold : (s.world.unsettled w).isSome = true → republished w t = false) :
    load ((s,l)::t) (s.endWorker w) ≤ load t s := by
  have hnone : (s.endWorker w).world.unsettled w = none := requeue_self _ w
  cases hu : s.world.unsettled w with
  | none =>
    refine load_worker hm hat hreq ?_ ?_
    · rintro ⟨hx,-⟩
      rw [hnone] at hx
      cases hx
    · simp [State.endWorker, World.requeue, World.discard, hu]
  | some m =>
    refine (load_return hm hat hreq ⟨by simp [hu],hold (by simp [hu])⟩ ?_ ?_).le
    · rintro ⟨hx,-⟩
      rw [hnone] at hx
      cases hx
    · exact length_requeue hu

/-- A request that is counted after its call was counted before, or has just
read a depth below the threshold. -/
theorem admitted_serve {x : Stage} {account : AccountId} {c : Call} {k : Except Exc c.Resp → Stage}
    {σ σ' : World} {q : ℕ} {o : Oracle} {out : Outcome} {r : Except Exc c.Resp}
    (hv : viewStage threshold x = .calls c k) (he : exec σ (.request q) o c out = some (r,σ'))
    (h : admitted (some ⟨account,k r⟩) = true) :
    (admitted (some ⟨account,x⟩) = true ∧ ∀ job, x ≠ .enqueueJob job) ∨
      (σ.ready.length < threshold ∧ σ' = σ) := by
  cases x with
  | checkDepth dto document =>
    cases hv
    rcases r with e | depth
    · cases h
    · dsimp only at h
      split at h
      · cases h
      · rename_i hlt
        obtain ⟨-,hs⟩ := exec_ok he
        cases hs
        exact Or.inr ⟨not_le.mp hlt,rfl⟩
  | insertJob dto document =>
    cases hv
    exact Or.inl ⟨rfl,by simp⟩
  | commitJob job =>
    cases hv
    exact Or.inl ⟨rfl,by simp⟩
  | enqueueJob job =>
    cases hv
    cases r <;> cases h
  | findDocument dto =>
    cases hv
    rcases r with e | _ | document <;> cases h
  | checkObject dto document =>
    cases hv
    rcases r with e | _ | _ <;> cases h
  | readDocument a id =>
    cases hv
    rcases r with e | _ | document <;> cases h
  | listDocument a id =>
    cases hv
    rcases r with e | _ | document <;> cases h
  | readJob a id =>
    cases hv
    rcases r with e | _ | document <;> cases h
  | listRows a id =>
    cases hv
    rcases r with e | rows
    · cases h
    · cases rows <;> cases h
  | signDownloads artifact rest done =>
    cases hv
    rcases r with e | url
    · cases h
    · cases rest <;> cases h
  | close sent e =>
    cases hv
    cases r <;> cases sent <;> cases e <;> cases h
  | finished => cases hv
  | crashed e => cases hv
  | _ =>
    cases hv
    cases r <;> cases h

theorem load_serve {q : ℕ} {o : Oracle} {out : Outcome} (hm : Move threshold s (.serve q o out) s') :
    load ((s,.serve q o out)::t) s' ≤ load t s ∨ s'.world.ready.length < threshold := by
  have hm₀ := hm
  cases hm with
  | @serve _ x c k _ _ r σ hq hv he =>
    obtain ⟨account,stage⟩ := x
    dsimp only at hv
    by_cases hpub : ∃ payload, c = .enqueue payload
    · obtain ⟨payload,rfl⟩ := hpub
      obtain ⟨job,rfl,rfl⟩ := viewStage_enqueue hv
      cases hv
      have hin : admitted (s.requests q) = true := by
        rw [hq]
        rfl
      refine Or.inl ?_
      rcases exec_enqueue he with ⟨-,hσ⟩ | ⟨-,hσ⟩
      · refine (load_publish hm₀ rfl rfl hin ?_ ?_).le
        · simp only [State.setStage, Function.update_self]
          cases r <;> rfl
        · change σ.ready.length = _
          rw [hσ, length_publish]
      · refine load_request hm₀ rfl rfl (fun _ => hin) ?_
        change σ.ready.length = _
        rw [hσ]
    · have hready : σ.ready = s.world.ready := by
        refine (exec_effect he).ready (fun payload hc => hpub ⟨payload,hc⟩) ?_
        rintro rfl
        cases stage <;> cases hv
      by_cases hadm : admitted (some ⟨account,k r⟩) = true
      · rcases admitted_serve hv he hadm with ⟨hin,-⟩ | ⟨hlt,rfl⟩
        · refine Or.inl (load_request hm₀ rfl rfl (fun _ => by rw [hq]; exact hin) ?_)
          exact congrArg List.length hready
        · exact Or.inr hlt
      · refine Or.inl (load_request hm₀ rfl rfl (fun h => ?_) (congrArg List.length hready))
        simp only [State.setStage, Function.update_self] at h
        exact absurd h hadm

/-- A step does not increase the load, or it is a request that passes its
check on a queue below the threshold. -/
theorem load_step (h : Afloat t s) (hm : Move threshold s l s') (ho : Orderly ((s,l)::t)) :
    load ((s,l)::t) s' ≤ load t s ∨ s'.world.ready.length < threshold := by
  have hm₀ := hm
  cases hm with
  | deliver hw hu hi => exact Or.inl (load_deliver hm₀).le
  | begin hw =>
    refine Or.inl (load_worker hm₀ rfl rfl ?_ rfl)
    rintro ⟨hu,hr⟩
    exact ⟨hu,by simpa [republished, takesMessage, republishes] using hr⟩
  | call hw hv he => exact Or.inl (load_call h hm₀)
  | loop hw =>
    refine Or.inl (load_worker hm₀ rfl rfl ?_ rfl)
    rintro ⟨hu,hr⟩
    exact ⟨hu,by simpa [republished, takesMessage, republishes] using hr⟩
  | @stop w hw =>
    refine Or.inl (load_end hm₀ rfl rfl ?_)
    intro hu
    rcases hw with hw | ⟨m,hw⟩
    · have hc := h.carries w
      rw [hw] at hc
      rw [show s.world.unsettled w = none from hc] at hu
      cases hu
    · exact republished_false h hw rfl
  | die hw => exact Or.inl (load_end hm₀ rfl rfl ho.2)
  | lose hw hu => exact absurd ho.2 (by simp)
  | duplicate hx => exact absurd ho.2 (by simp)
  | inject body => exact absurd ho.2 (by simp)
  | arrive account route hr =>
    refine Or.inl (load_request hm₀ rfl rfl (fun hx => ?_) rfl)
    simp only [State.setStage, Function.update_self] at hx
    cases route <;> cases hx
  | serve hq hv he => exact load_serve hm₀
  | abort hq =>
    refine Or.inl (load_request hm₀ rfl rfl (fun hx => ?_) rfl)
    simp only [State.setStage, Function.update_self] at hx
    cases hx
  | receive hq hw =>
    rw [load, load, holdings_eq hm₀ rfl, admitted_eq hm₀ rfl]
    exact Or.inl le_rfl
  | upload content hu =>
    rw [load, load, holdings_eq hm₀ rfl, admitted_eq hm₀ rfl]
    exact Or.inl le_rfl

theorem Afloat.init : Afloat [] init := ⟨fun _ => rfl,fun _ h => by cases h⟩

theorem load_init : load [] init = 0 := by
  simp [load, init, admitted, holding]

theorem Orderly.lose (h : Orderly ((s,l)::t)) (w : ℕ) : l ≠ .lose w := by
  rintro rfl
  exact h.2

theorem afloat_of_trail (ht : Trail (step threshold) init t s) (ho : Orderly t) : Afloat t s := by
  induction ht with
  | start => exact Afloat.init
  | next ht hstep ih =>
    have hm := step_move hstep
    have h := ih ho.1
    exact ⟨carries_step h (sound_of_reachable ⟨_,ht⟩) hm ho.lose,late_step h hm⟩

/-- The load never exceeds what a request that passes its check can find. -/
theorem load_le {C W : ℕ} (ht : Trail (step threshold) init t s) (ho : Orderly t)
    (hC : ∀ x ∈ Visited t s, {r | admitted (x.requests r) = true}.encard ≤ C)
    (hW : ∀ x ∈ Visited t s, {w | (x.world.unsettled w).isSome = true}.encard ≤ W) :
    load t s ≤ ((threshold-1+C+W : ℕ) : ℕ∞) := by
  induction ht with
  | start =>
    rw [load_init]
    exact zero_le
  | @next t s s' l ht hstep ih =>
    rcases load_step (afloat_of_trail ht ho.1) (step_move hstep) ho with hle | hlt
    · refine hle.trans (ih ho.1 (fun x hx => hC x ?_) (fun x hx => hW x ?_))
      · exact List.mem_cons_of_mem _ hx
      · exact List.mem_cons_of_mem _ hx
    · have hready : (s'.world.ready.length : ℕ∞) ≤ (threshold-1 : ℕ) := by
        exact_mod_cast Nat.le_sub_one_of_lt hlt
      have hold : {w | holding ((s,l)::t) s' w} ⊆ {w | (s'.world.unsettled w).isSome = true} :=
        fun w hw => hw.1
      push_cast
      exact add_le_add (add_le_add hready (hC s' List.mem_cons_self))
        ((Set.encard_le_encard hold).trans (hW s' List.mem_cons_self))

/-- In every orderly run in which at most `C` requests at a time are between
their read of the queue depth and the end of `enqueue`, and at most `W`
workers at a time have an unsettled message, the queue never holds more than
`threshold-1+C+W` ready messages. -/
theorem ready_bounded {C W : ℕ} (ht : Trail (step threshold) init t s) (ho : Orderly t)
    (hC : ∀ x ∈ Visited t s, {r | admitted (x.requests r) = true}.encard ≤ C)
    (hW : ∀ x ∈ Visited t s, {w | (x.world.unsettled w).isSome = true}.encard ≤ W) :
    ∀ x ∈ Visited t s, x.world.ready.length ≤ threshold-1+C+W := by
  have hlast : s.world.ready.length ≤ threshold-1+C+W := by
    have hle : (s.world.ready.length : ℕ∞) ≤ load t s := le_add_right le_self_add
    exact_mod_cast hle.trans (load_le ht ho hC hW)
  induction ht with
  | start =>
    intro x hx
    obtain rfl := List.mem_singleton.mp hx
    exact hlast
  | @next t s s' l ht hstep ih =>
    have hC' : ∀ x ∈ Visited t s, {r | admitted (x.requests r) = true}.encard ≤ C :=
      fun x hx => hC x (List.mem_cons_of_mem _ hx)
    have hW' : ∀ x ∈ Visited t s, {w | (x.world.unsettled w).isSome = true}.encard ≤ W :=
      fun x hx => hW x (List.mem_cons_of_mem _ hx)
    intro x hx
    rcases List.mem_cons.mp hx with rfl | hx
    · exact hlast
    · refine ih ho.1 hC' hW' ?_ x hx
      have hle : (s.world.ready.length : ℕ∞) ≤ load t s := le_add_right le_self_add
      exact_mod_cast hle.trans (load_le ht ho.1 hC' hW')

end Steps

def calm : Label → Bool
  | .duplicate _ | .inject _ | .lose _ | .die _ => false
  | _ => true

theorem orderly_of_calm (t : List (State × Label)) (h : ∀ x ∈ t, calm x.2 = true) : Orderly t := by
  induction t with
  | nil => trivial
  | cons x t ih =>
    obtain ⟨s,l⟩ := x
    refine ⟨ih (fun y hy => h y (List.mem_cons_of_mem _ hy)),?_⟩
    have hl := h _ List.mem_cons_self
    cases l <;> trivial

def within (n C W : ℕ) (s : State) : Bool :=
  (List.range n).countP (fun r => admitted (s.requests r)) ≤ C &&
    (List.range n).countP (fun w => (s.world.unsettled w).isSome) ≤ W

theorem encard_le_of_countP {p : ℕ → Bool} {n k : ℕ} (hnone : ∀ r, n ≤ r → p r = false)
    (h : (List.range n).countP p ≤ k) : {r | p r = true}.encard ≤ k := by
  have hsub : {r | p r = true} ⊆ ((List.range n).filter p).toFinset := by
    intro r hr
    have hlt : r < n := by
      by_contra hge
      have hp : p r = true := hr
      rw [hnone r (by omega)] at hp
      cases hp
    simpa using ⟨hlt,hr⟩
  calc {r | p r = true}.encard ≤ (((List.range n).filter p).toFinset : Set ℕ).encard :=
        Set.encard_le_encard hsub
    _ = ((List.range n).filter p).toFinset.card := Set.encard_coe_eq_coe_finsetCard _
    _ ≤ ((List.range n).countP p : ℕ) := by
        rw [List.countP_eq_length_filter]
        exact_mod_cast List.toFinset_card_le _
    _ ≤ k := by exact_mod_cast h

def uploadLabels (r : ℕ) (document : Uuid) : List Label :=
  .arrive r 7 .createDocument::.serve r { uuid := document } .ok::
    List.replicate 5 (.serve r {} .ok)++[.receive r,.upload 7 (rawKey 7 document) ByteArray.empty]

def admitLabels (r : ℕ) (document : Uuid) : List Label :=
  .arrive r 7 (.processDocument document [.markdown])::List.replicate 3 (.serve r {} .ok)

def createLabels (r : ℕ) (job : Uuid) : List Label :=
  [.serve r { uuid := job } .ok,.serve r {} .ok,.serve r {} .ok]

def overshootRun : List Label := List.flatten [uploadLabels 0 1,uploadLabels 1 2,uploadLabels 2 3,
  admitLabels 3 1,createLabels 3 4,[.deliver 0 0,.begin 0],List.replicate 6 (.call 0 {} .ok),
  [.call 0 {} (.raises .mapped)],List.replicate 5 (.call 0 {} .ok),admitLabels 4 2,admitLabels 5 3,
  createLabels 4 5,createLabels 5 6,[.call 0 {} .ok]]

theorem ready_bounded_sample : ∃ s, run (step 1) init overshootRun = some s ∧
    s.world.ready.length = 3 ∧ s.world.ready.length ≤ 1-1+2+1 := by
  have hrun : ((run (step 1) init overshootRun).any (fun s => within 6 2 1 s &&
      s.world.ready.length = 3) && overshootRun.all (fun l => calm l && below 6 l) &&
      passes (step 1) (fun s _ => within 6 2 1 s) init overshootRun) = true := by decide +kernel
  simp only [Bool.and_eq_true] at hrun
  obtain ⟨⟨hany,hall⟩,hpass⟩ := hrun
  obtain ⟨s,hs,hlast⟩ := (Option.any_eq_true _ _).mp hany
  simp only [Bool.and_eq_true, decide_eq_true_eq] at hlast
  obtain ⟨t,ht,hwithin,hlabels⟩ := trail_of_passes overshootRun hpass
  rw [hs, Option.getD_some] at ht
  have hl : Allowed (fun _ l => calm l = true ∧ below 6 l = true) t :=
    allowed_of_labels hlabels (fun _ l hl => by simpa using List.all_eq_true.mp hall l hl)
  have hvisited : ∀ x ∈ Visited t s, within 6 2 1 x = true := by
    intro x hx
    rcases List.mem_cons.mp hx with rfl | hx
    · exact hlast.1
    · obtain ⟨y,hy,rfl⟩ := List.mem_map.mp hx
      exact hwithin y hy
  refine ⟨s,hs,hlast.2,ready_bounded ht
    (orderly_of_calm t (fun x hx => (hl x hx).1)) (fun x hx => ?_) (fun x hx => ?_) s
    List.mem_cons_self⟩
  · have hcount := hvisited x hx
    simp only [within, Bool.and_eq_true, decide_eq_true_eq] at hcount
    refine encard_le_of_countP (fun r hr => ?_) hcount.1
    have hnone := ht.frame_visited (fun y => y.requests r) (fun l => requestAt l = some r)
      (fun a l b hat hstep => frame_request (step_move hstep) hat)
      (fun y hy hat => by have := (hl y hy).2; simp [below, hat] at this; omega) x hx
    rw [show x.requests r = none from hnone]
    rfl
  · have hcount := hvisited x hx
    simp only [within, Bool.and_eq_true, decide_eq_true_eq] at hcount
    refine encard_le_of_countP (fun w hw => ?_) hcount.2
    have hnone := ht.frame_visited (fun y => y.world.unsettled w) (fun l => workerAt l = some w)
      (fun a l b hat hstep => (frame_worker (step_move hstep) hat).2)
      (fun y hy hat => by have := (hl y hy).2; simp [below, hat] at this; omega) x hx
    rw [show x.world.unsettled w = none from hnone]
    rfl

end DocPipeline.Backpressure
