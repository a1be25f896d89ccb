import DocPipeline.Snapshots
import DocPipeline.Library.Stuttering

/-!
# Watching a job

`watch` samples a job until its deadline has passed and keeps a sample when
the status differs from that of the last one kept. What a call meets is given
by the clock readings and by what psql prints, whatever they are; from them
follow the samples it takes. `worker_kill` reports on the list it returns.
-/

set_option autoImplicit false

namespace DocPipeline.Watching
open DocPipeline.Identifiers DocPipeline.Records Snapshots Stuttering

/-- What a call meets: its readings of `time.monotonic`, and the output of
its queries for a job, `none` where the command fails. -/
structure Surroundings (Time : Type) where
  monotonic : ℕ → Time
  runQuery : Uuid → ℕ → Option (List Char)

inductive Ending where
  | unfinished
  | raised
  | returned (seen : List JobSnapshot)
  deriving DecidableEq

def observe (seen : List JobSnapshot) (snap : JobSnapshot) : List JobSnapshot :=
  match seen.getLast? with
  | none => seen++[snap]
  | some last => if last.status ≠ snap.status then seen++[snap] else seen

section Loop
variable {Time : Type} [LT Time] [Add Time] [Zero Time]
variable (w : Surroundings Time) (job : Uuid) (duration interval : Time)

def deadline : Time := w.monotonic 0 + duration

def sample (n : ℕ) : Option JobSnapshot := (w.runQuery job n).bind snapshot

structure Sampled (snaps : List JobSnapshot) : Prop where
  running : ∀ n < snaps.length, w.monotonic (n+1) < deadline w duration
  expired : ¬ w.monotonic (snaps.length+1) < deadline w duration
  read : ∀ n, n < snaps.length → sample w job n = snaps[n]?
  slept : snaps ≠ [] → ¬ interval < 0

variable {w job duration interval} in
theorem Sampled.unique {snaps snaps' : List JobSnapshot}
    (h : Sampled w job duration interval snaps) (h' : Sampled w job duration interval snaps') :
    snaps = snaps' := by
  have hlen : snaps.length = snaps'.length := by
    rcases lt_trichotomy snaps.length snaps'.length with hlt | heq | hgt
    · exact absurd (h'.running _ hlt) h.expired
    · exact heq
    · exact absurd (h.running _ hgt) h'.expired
  apply List.ext_getElem?
  intro n
  by_cases hn : n < snaps.length
  · rw [← h.read n hn, h'.read n (hlen ▸ hn)]
  · rw [List.getElem?_eq_none (by omega), List.getElem?_eq_none (by omega)]

variable [DecidableLT Time]

/-- The `while` loop after `n` samples. `time.sleep` raises on a negative
argument. -/
def watchLoop : ℕ → ℕ → List JobSnapshot → Ending
  | 0, _, _ => .unfinished
  | fuel+1, n, seen =>
    if w.monotonic (n+1) < deadline w duration then
      match sample w job n with
      | none => .raised
      | some snap => if interval < 0 then .raised else watchLoop fuel (n+1) (observe seen snap)
    else .returned seen

def watch (fuel : ℕ) : Ending := watchLoop w job duration interval fuel 0 []

theorem observe_eq : observe = keep JobSnapshot.status := by
  funext seen snap
  rw [observe, keep]
  cases seen.getLast? with
  | none => rfl
  | some last =>
    by_cases h : last.status = snap.status <;> simp [h]

variable {w job duration interval}

/-- From its `n`-th round on, the loop samples `rest` and returns what it has
collected by then. -/
theorem watchLoop_of_samples (snaps rest : List JobSnapshot)
    (h : Sampled w job duration interval (snaps++rest)) (seen : List JobSnapshot) :
    watchLoop w job duration interval (rest.length+1) snaps.length seen =
      .returned (rest.foldl observe seen) := by
  induction rest generalizing snaps seen with
  | nil =>
    have he := h.expired
    rw [List.append_nil] at he
    rw [watchLoop, if_neg he]
    rfl
  | cons snap rest ih =>
    have hn : snaps.length < (snaps++snap::rest).length := by simp
    have hread := h.read _ hn
    rw [List.getElem?_append_right le_rfl, Nat.sub_self, List.getElem?_cons_zero] at hread
    have hnext := ih (snaps++[snap]) (by simpa using h) (observe seen snap)
    rw [List.length_append, List.length_singleton] at hnext
    rw [List.length_cons, watchLoop, if_pos (h.running _ hn), hread]
    simp only [if_neg (h.slept (by simp))]
    exact hnext

theorem samples_of_watchLoop {fuel : ℕ} (snaps : List JobSnapshot)
    (hrun : ∀ n < snaps.length, w.monotonic (n+1) < deadline w duration)
    (hread : ∀ n, n < snaps.length → sample w job n = snaps[n]?)
    (hslept : snaps ≠ [] → ¬ interval < 0) {seen result : List JobSnapshot}
    (h : watchLoop w job duration interval fuel snaps.length seen = .returned result) :
    ∃ rest, Sampled w job duration interval (snaps++rest) ∧ result = rest.foldl observe seen := by
  induction fuel generalizing snaps seen with
  | zero => cases h
  | succ fuel ih =>
    rw [watchLoop] at h
    split at h
    · rename_i hc
      cases hs : sample w job snaps.length with
      | none => simp [hs] at h
      | some snap =>
        simp only [hs] at h
        split at h
        · cases h
        · rename_i hi
          have hlen : (snaps++[snap]).length = snaps.length+1 := by simp
          obtain ⟨rest,hr,heq⟩ := ih (snaps++[snap])
            (fun n hn => by
              rcases Nat.lt_succ_iff_lt_or_eq.mp (hlen ▸ hn) with hn | rfl
              · exact hrun n hn
              · exact hc)
            (fun n hn => by
              rcases Nat.lt_succ_iff_lt_or_eq.mp (hlen ▸ hn) with hn | rfl
              · rw [hread n hn, List.getElem?_append_left hn]
              · rw [hs, List.getElem?_concat_length])
            (fun _ => hi) (by rwa [hlen])
          rw [List.append_assoc, List.singleton_append] at hr
          exact ⟨snap::rest,hr,heq⟩
    · rename_i hc
      cases h
      exact ⟨[],by rw [List.append_nil]; exact ⟨hrun,hc,hread,hslept⟩,rfl⟩

/-- What a call returns, in terms of what it sampled. -/
theorem watch_returns_iff (result : List JobSnapshot) :
    (∃ fuel, watch w job duration interval fuel = .returned result) ↔
      ∃ snaps, Sampled w job duration interval snaps ∧
        result = collapse JobSnapshot.status snaps := by
  simp only [collapse, ← observe_eq]
  constructor
  · rintro ⟨fuel,h⟩
    exact samples_of_watchLoop [] (by simp) (by simp) (by simp) h
  · rintro ⟨snaps,h,rfl⟩
    exact ⟨snaps.length+1,watchLoop_of_samples [] snaps h []⟩

theorem watch_returned {snaps seen : List JobSnapshot} {fuel : ℕ}
    (hs : Sampled w job duration interval snaps)
    (hw : watch w job duration interval fuel = .returned seen) :
    seen = collapse JobSnapshot.status snaps := by
  obtain ⟨snaps',hs',rfl⟩ := (watch_returns_iff seen).mp ⟨fuel,hw⟩
  rw [hs.unique hs']

end Loop

section Report

def final (history : List JobSnapshot) (started : JobSnapshot) : JobSnapshot :=
  history.getLast?.getD started

def boolStr : Bool → String
  | true => "True"
  | false => "False"

def summary (final : JobSnapshot) (depth : ℕ) : String :=
  "final_status=" ++ final.status ++ (" attempts=" ++ (toString final.attempts ++
    (" reached_terminal=" ++ boolStr (decide (final.status ∈ ["completed","failed"])) ++
      " queue_depth=" ++ toString depth)))

/-- What the worker-kill scenario reports after its watch: the records, as
step and detail, and the summary. -/
def watchReport (history : List JobSnapshot) (started : JobSnapshot) (depth : ℕ) :
    List (String × String) × String :=
  (history.map (fun snap => ("status_observed",
      "status=" ++ snap.status ++ " attempts=" ++ toString snap.attempts)) ++
    [("final_queue_depth",toString depth)],summary (final history started) depth)

end Report

structure Collapsed (snaps seen : List JobSnapshot) : Prop where
  exact : seen = snaps.destutter (· ≠ ·)
  all : ∀ snap ∈ snaps, snap ∈ seen
  ordered : seen.Sublist snaps
  distinct : seen.IsChain (· ≠ ·)
  last : seen.getLast? = snaps.getLast?
  reported : ∀ started, final seen started = snaps.getLast?.getD started

theorem collapsed_destutter (snaps : List JobSnapshot) :
    Collapsed snaps (snaps.destutter (· ≠ ·)) where
  exact := rfl
  all := mem_destutter
  ordered := List.destutter_sublist _ snaps
  distinct := List.isChain_destutter _ snaps
  last := getLast?_destutter snaps
  reported := by
    intro started
    rw [final, getLast?_destutter]

section Collapse
variable {Time : Type} [LT Time] [DecidableLT Time] [Add Time] [Zero Time]

/-- A call returns every distinct state it sampled exactly when no two
consecutive samples differ without differing in status. -/
theorem watch_collapses_iff (w : Surroundings Time) (job : Uuid) (duration interval : Time)
    (fuel : ℕ) (snaps seen : List JobSnapshot) (hs : Sampled w job duration interval snaps)
    (hw : watch w job duration interval fuel = .returned seen) :
    Collapsed snaps seen ↔ snaps.IsChain (fun a b => a.status = b.status → a = b) := by
  rw [← collapse_eq_destutter_iff, ← watch_returned hs hw]
  constructor
  · exact Collapsed.exact
  · intro h
    rw [h]
    exact collapsed_destutter snaps

end Collapse

def polling (first second : Selected) : Surroundings ℤ where
  monotonic n := n
  runQuery _ n := some (psqlOutput (if n = 0 then first else second))

theorem snapshot_of_no_message {row : Selected} (h : row.errorMessage = none) :
    snapshot (psqlOutput row) = some row.expected := by
  have hm : row.message = [] := by simp [Selected.message, h]
  have hf : parseText (lastField []) = none := by decide
  rw [snapshot_psqlOutput, hm, hf, ← h]
  rfl

theorem sampled_polling {first second : Selected} (hf : first.errorMessage = none)
    (hs : second.errorMessage = none) (job : Uuid) :
    Sampled (polling first second) job 3 1 [first.expected,second.expected] where
  running n hn := by
    have : n < 2 := hn
    simp only [polling, deadline]
    omega
  expired := by
    simp only [polling, deadline, List.length_cons, List.length_nil]
    omega
  read n hn := by
    rw [sample, polling, Option.bind_some]
    match n, hn with
    | 0, _ => exact snapshot_of_no_message hf
    | 1, _ => exact snapshot_of_no_message hs
  slept _ := by decide

theorem watch_polling {first second : Selected} (hf : first.errorMessage = none)
    (hs : second.errorMessage = none) (job : Uuid)
    (h : first.expected.status = second.expected.status) :
    watch (polling first second) job 3 1 3 = .returned [first.expected] := by
  have hw := watchLoop_of_samples [] _ (sampled_polling hf hs job) []
  rw [watch]
  simpa [observe, h] using hw

def inAttempt (attempts : ℤ) : Selected where
  id := 1
  status := .started
  attempts := attempts
  maxAttempts := 3
  queuedAt := none
  startedAt := none
  completedAt := none
  failedAt := none
  errorMessage := none

theorem watch_collapses_sample : Collapsed [(inAttempt 1).expected,(inAttempt 1).expected]
    [(inAttempt 1).expected] :=
  (watch_collapses_iff (polling (inAttempt 1) (inAttempt 1)) 1 3 1 3 _ _
    (sampled_polling rfl rfl 1) (watch_polling rfl rfl 1 rfl)).mpr (by simp)

/-- The job was retried between the two samples, and the second is dropped. -/
theorem retry_not_seen :
    Sampled (polling (inAttempt 1) (inAttempt 2)) 1 3 1
        [(inAttempt 1).expected,(inAttempt 2).expected] ∧
      watch (polling (inAttempt 1) (inAttempt 2)) 1 3 1 3 = .returned [(inAttempt 1).expected] ∧
      ¬ Collapsed [(inAttempt 1).expected,(inAttempt 2).expected] [(inAttempt 1).expected] ∧
      (final [(inAttempt 1).expected] (inAttempt 1).expected).attempts = 1 ∧
      (inAttempt 2).expected.attempts = 2 := by
  refine ⟨sampled_polling rfl rfl 1,watch_polling rfl rfl 1 rfl,fun h => ?_,rfl,rfl⟩
  have hlast := congrArg JobSnapshot.attempts (Option.some.inj h.last)
  exact absurd hlast (by decide)

section Reported
variable {Time : Type} [LT Time] [DecidableLT Time] [Add Time] [Zero Time]

/-- The report ends with the status of the last sample. Its attempts are
those of the first sample since the status last changed. -/
theorem summary_iff (w : Surroundings Time) (job : Uuid) (duration interval : Time) (fuel : ℕ)
    (snaps seen : List JobSnapshot) (hs : Sampled w job duration interval snaps)
    (hw : watch w job duration interval fuel = .returned seen) (started : JobSnapshot)
    (depth : ℕ) :
    (watchReport seen started depth).2 = (watchReport snaps started depth).2 ↔
      (finalRun JobSnapshot.status snaps).head?.map JobSnapshot.attempts =
        snaps.getLast?.map JobSnapshot.attempts := by
  have hkey := key_getLast?_collapse JobSnapshot.status snaps
  simp only [watchReport, final]
  rw [watch_returned hs hw]
  rw [getLast?_collapse] at hkey ⊢
  cases hf : (finalRun JobSnapshot.status snaps).head? with
  | none =>
    rw [hf, eq_comm, Option.map_none, Option.map_eq_none_iff] at hkey
    simp [hkey]
  | some first =>
    rw [hf, eq_comm, Option.map_some, Option.map_eq_some_iff] at hkey
    obtain ⟨last,hl,hstatus⟩ := hkey
    rw [hl]
    simp only [Option.getD_some, Option.map_some, Option.some.injEq, summary, hstatus]
    constructor
    · intro h
      have hlist := congrArg String.toList h
      simp only [String.toList_append, List.append_assoc, List.append_cancel_left_eq,
        List.append_cancel_right_eq] at hlist
      exact Int.repr_injective (String.toList_inj.mp hlist)
    · intro h
      rw [h]

end Reported

end DocPipeline.Watching
