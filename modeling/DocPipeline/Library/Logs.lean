import Mathlib.Tactic

/-!
# Logs of keyed transitions

A log, newest event first, in which some events move the object with a given
key from one state to another. A log is lawful when every move starts from
the state its object is in. In a lawful log an entry into a state that has
not been left since is the latest event of its key, so there is at most one.
-/

set_option autoImplicit false

namespace TransitionLog

variable {ε κ τ : Type} [DecidableEq κ]

/-- A move of the object `key`; `before` is `none` when it is created. -/
structure Entry (κ τ : Type) where
  key : κ
  before : Option τ
  after : τ

variable (read : ε → Option (Entry κ τ))

def about (k : κ) (e : ε) : Bool := (read e).any (fun x => x.key = k)

def trace (k : κ) (log : List ε) : List τ :=
  (log.filter (about read k)).filterMap (fun e => (read e).map Entry.after)

def current (k : κ) (log : List ε) : Option τ := (trace read k log).head?

def Lawful (initial : τ) (edge : τ → τ → Prop) : List ε → Prop
  | [] => True
  | e::log => Lawful initial edge log ∧ ∀ x, read e = some x →
      current read x.key log = x.before ∧ match x.before with
        | none => x.after = initial
        | some b => edge b x.after

def Unreleased (e : ε) (log : List ε) : Prop :=
  ∃ post pre, log = post++e::pre ∧ ∀ x ∈ post, ∀ y z, read e = some y → read x = some z →
    z.key = y.key → z.before ≠ some y.after

variable {read} {initial : τ} {edge : τ → τ → Prop} {log : List ε} {e : ε} {x : Entry κ τ} {k : κ}

theorem about_eq (h : read e = some x) : about read k e = decide (x.key = k) := by
  simp [about, h]

theorem about_none (h : read e = none) : about read k e = false := by
  simp [about, h]

theorem trace_nil : trace read k [] = [] := rfl

theorem trace_cons_self (h : read e = some x) :
    trace read x.key (e::log) = x.after::trace read x.key log := by
  simp [trace, about_eq h, h]

theorem trace_cons_other (h : about read k e = false) :
    trace read k (e::log) = trace read k log := by
  simp [trace, h]

theorem trace_append {es : List ε} (h : ∀ e ∈ es, about read k e = false) :
    trace read k (es++log) = trace read k log := by
  induction es with
  | nil => rfl
  | cons e es ih =>
    rw [List.cons_append, trace_cons_other (h e List.mem_cons_self)]
    exact ih (fun e he => h e (List.mem_cons_of_mem _ he))

theorem current_cons_self (h : read e = some x) :
    current read x.key (e::log) = some x.after := by
  rw [current, trace_cons_self h]
  rfl

theorem current_append {es : List ε} (h : ∀ e ∈ es, about read k e = false) :
    current read k (es++log) = current read k log := by
  rw [current, trace_append h]
  rfl

theorem Lawful.append {es : List ε} (h : Lawful read initial edge log)
    (hes : ∀ e ∈ es, read e = none) : Lawful read initial edge (es++log) := by
  induction es with
  | nil => exact h
  | cons e es ih =>
    refine ⟨ih (fun e he => hes e (List.mem_cons_of_mem _ he)),fun x hx => ?_⟩
    rw [hes e List.mem_cons_self] at hx
    cases hx

theorem Lawful.tail (h : Lawful read initial edge (e::log)) : Lawful read initial edge log := h.1

/-- The states of one object, newest first, are a path of `edge`. -/
theorem Lawful.path (h : Lawful read initial edge log) (k : κ) :
    (trace read k log).IsChain (fun new old => edge old new) := by
  induction log with
  | nil => exact List.isChain_nil
  | cons e log ih =>
    have ih := ih h.tail
    cases hr : read e with
    | none => rwa [trace_cons_other (about_none hr)]
    | some x =>
      by_cases hk : x.key = k
      · subst hk
        rw [trace_cons_self hr]
        obtain ⟨hc,hx⟩ := h.2 x hr
        refine List.isChain_cons.mpr ⟨fun y hy => ?_,ih⟩
        have hb : x.before = some y := hc.symm.trans hy
        simpa [hb] using hx
      · rwa [trace_cons_other (by simp [about_eq hr, hk])]

/-- The path starts in the initial state. -/
theorem Lawful.first (h : Lawful read initial edge log) (k : κ) :
    ∀ a ∈ (trace read k log).getLast?, a = initial := by
  induction log with
  | nil => simp [trace_nil]
  | cons e log ih =>
    have ih := ih h.tail
    cases hr : read e with
    | none => rwa [trace_cons_other (about_none hr)]
    | some x =>
      by_cases hk : x.key = k
      · subst hk
        obtain ⟨hc,hx⟩ := h.2 x hr
        rw [trace_cons_self hr]
        intro a ha
        cases ht : trace read x.key log with
        | nil =>
          have hb : x.before = none := by rw [← hc, current, ht]; rfl
          rw [ht] at ha
          obtain rfl : x.after = a := by simpa using ha
          simpa [hb] using hx
        | cons b rest =>
          rw [ht] at ih ha
          exact ih a (by simpa using ha)
      · rwa [trace_cons_other (by simp [about_eq hr, hk])]

omit [DecidableEq κ] in
theorem Unreleased.append {es : List ε} (h : Unreleased read e log) (hr : read e = some x)
    (hes : ∀ a ∈ es, ∀ z, read a = some z → z.key = x.key → z.before ≠ some x.after) :
    Unreleased read e (es++log) := by
  obtain ⟨post,pre,rfl,hn⟩ := h
  refine ⟨es++post,pre,(List.append_assoc _ _ _).symm,fun a ha y z hy hz hk => ?_⟩
  rcases List.mem_append.mp ha with ha | ha
  · obtain rfl := Option.some.inj (hr.symm.trans hy)
    exact hes a ha z hz hk
  · exact hn a ha y z hy hz hk

omit [DecidableEq κ] in
theorem Unreleased.head (e : ε) (log : List ε) : Unreleased read e (e::log) :=
  ⟨[],log,rfl,by simp⟩

/-- An entry that was not left since is the latest event of its key. -/
theorem Unreleased.latest (hu : Unreleased read e log) (h : Lawful read initial edge log)
    (hr : read e = some x) :
    log.find? (about read x.key) = some e ∧ current read x.key log = some x.after := by
  obtain ⟨post,pre,rfl,hn⟩ := hu
  induction post with
  | nil =>
    refine ⟨?_,current_cons_self hr⟩
    simp [about_eq hr]
  | cons a post ih =>
    obtain ⟨hf,hc⟩ := ih (fun y hy => hn y (List.mem_cons_of_mem _ hy)) h.tail
    have ha : about read x.key a = false := by
      cases hra : read a with
      | none => exact about_none hra
      | some y =>
        rw [about_eq hra, decide_eq_false_iff_not]
        intro hk
        have hb := (h.2 y hra).1
        rw [hk] at hb
        have hb := hc.symm.trans hb
        exact hn a List.mem_cons_self x y hr hra hk hb.symm
    constructor
    · rw [List.cons_append, List.find?_cons_of_neg (by simp [ha])]
      exact hf
    · rw [List.cons_append, current, trace_cons_other ha]
      exact hc

theorem Unreleased.unique {e' : ε} {x' : Entry κ τ} (hu : Unreleased read e log)
    (hu' : Unreleased read e' log) (h : Lawful read initial edge log) (hr : read e = some x)
    (hr' : read e' = some x') (hk : x.key = x'.key) : e = e' := by
  have h₁ := (hu.latest h hr).1
  have h₂ := (hu'.latest h hr').1
  rw [hk, h₂] at h₁
  exact (Option.some.inj h₁).symm

end TransitionLog
