import DocPipeline.Ledger

/-!
# Laws of the ledger

Invariants of the book, each proved once for the six postings: the log is a
lawful log of the job state machine and agrees with the rows, attempts count
the claims, at most one job of a document is active, and a job belongs to
the owner of its document.
-/

set_option autoImplicit false

namespace DocPipeline.Bookkeeping
open DocPipeline.Identifiers DocPipeline.Records DocPipeline.Database DocPipeline.Calls
open DocPipeline.Pending DocPipeline.Ledger KeyedTable TransitionLog

structure Opens (db : Tables) (es : List Event) (db' : Tables) (row : JobRow) : Prop where
  log : es = [.created row.id]
  fresh : db.jobs.get row.id = none
  status : row.status = .queued
  attempts : row.attempts = 0
  error : row.errorMessage = none
  index : db.activeJobExists row.accountId row.documentId = false
  owner : ∃ d, db.documents.get row.documentId = some d ∧ d.accountId = row.accountId
  jobs : ∀ j, db'.jobs.get j = if row.id = j then some row else db.jobs.get j
  documents : db'.documents = db.documents
  artifacts : db'.artifacts = db.artifacts

structure Shifts (db : Tables) (es : List Event) (db' : Tables) (w : ℕ) (old new : JobRow) :
    Prop where
  log : es = [.moved (.worker w) old.id old.status new.status new.attempts]
  row : db.jobs.get old.id = some old
  replaces : Replaces old new
  more : new.status = .queued → old.attempts < old.maxAttempts
  last : new.status = .failed → old.maxAttempts ≤ old.attempts
  jobs : ∀ j, db'.jobs.get j = if old.id = j then some new else db.jobs.get j
  documents : db'.documents = db.documents

section Postings
variable {db db' : Tables} {log es : List Event}

theorem get_put_row {old new : JobRow} (hrow : db.jobs.get old.id = some old)
    (hid : new.id = old.id) (j : Uuid) :
    (db.jobs.put new).get j = if old.id = j then some new else db.jobs.get j := by
  rw [Table.get_put, hid]
  split
  · rename_i h
    subst h
    rw [hrow]
    rfl
  · rfl

theorem shifts_put {w : ℕ} {old : JobRow} (status : JobStatus) (err : Option String)
    (now again : Time) (hrow : db.jobs.get old.id = some old)
    (hedge : edge old.status status = true)
    (hmore : status = .queued → old.attempts < old.maxAttempts)
    (hlast : status = .failed → old.maxAttempts ≤ old.attempts)
    (hes : es = [.moved (.worker w) old.id old.status status
      (updated status err now again old).attempts])
    (hjobs : db'.jobs = db.jobs.put (updated status err now again old))
    (hdocs : db'.documents = db.documents) :
    Shifts db es db' w old (updated status err now again old) := by
  have hrep := replaces_updated err now again hedge
  refine ⟨by simp [hes],hrow,hrep,by simpa using hmore,by simpa using hlast,fun j => ?_,hdocs⟩
  rw [hjobs]
  exact get_put_row hrow hrep.id j

/-- A posting leaves the jobs alone, opens one or moves one on. -/
theorem posting_jobs (hp : Posting db log es db') :
    (db'.jobs = db.jobs ∧ es = []) ∨ (∃ row, Opens db es db' row) ∨
      ∃ w old new, Shifts db es db' w old new := by
  cases hp with
  | document row hfresh hkey => exact Or.inl ⟨rfl,rfl⟩
  | created row hfresh hindex howner hnew =>
    obtain ⟨dto,id,m,now,again,rfl⟩ := hnew
    exact Or.inr (Or.inl ⟨_,rfl,hfresh,rfl,rfl,rfl,hindex,howner,
      Table.get_insert hfresh,rfl,rfl⟩)
  | claimed w old now again hrow hst =>
    exact Or.inr (Or.inr ⟨w,old,_,shifts_put .started none now again hrow (by rw [hst]; rfl)
      (by simp) (by simp) (by simp [hst]) rfl rfl⟩)
  | completed w old now again a hrow hst ha =>
    exact Or.inr (Or.inr ⟨w,old,_,shifts_put .completed none now again hrow (by rw [hst]; rfl)
      (by simp) (by simp) (by simp [hst]) rfl rfl⟩)
  | requeued w old text now again hrow hst hmore htext =>
    exact Or.inr (Or.inr ⟨w,old,_,shifts_put .queued (some text) now again hrow
      (by rw [hst]; rfl) (by simpa using hmore) (by simp) (by simp [hst]) rfl rfl⟩)
  | failed w old text now again hrow hst hlast htext =>
    exact Or.inr (Or.inr ⟨w,old,_,shifts_put .failed (some text) now again hrow
      (by rw [hst]; rfl) (by simp) (by simpa using hlast) (by simp [hst]) rfl rfl⟩)

end Postings

section Book
variable {db : Tables} {log : List Event}

structure Agrees (db : Tables) (log : List Event) : Prop where
  lawful : Lawful reading .queued (fun a b => edge a b = true) log
  current : ∀ j, current reading j log = (db.jobs.get j).map JobRow.status

theorem reading_created (j : Uuid) : reading (.created j) = some ⟨j,none,.queued⟩ := rfl

theorem reading_moved (p : Proc) (j : Uuid) (a b : JobStatus) (n : ℕ) :
    reading (.moved p j a b n) = some ⟨j,some a,b⟩ := rfl

theorem current_cons {e : Event} {x : Entry Uuid JobStatus} (hr : reading e = some x) (j : Uuid) :
    current reading j (e::log) = if x.key = j then some x.after else current reading j log := by
  split
  · rename_i h
    subst h
    exact current_cons_self hr
  · rename_i h
    rw [current, trace_cons_other (by simp [about_eq hr, h])]
    rfl

theorem book_agrees (h : Book db log) : Agrees db log := by
  induction h with
  | empty => exact ⟨trivial,fun j => rfl⟩
  | quiet h es hes ih =>
    refine ⟨ih.lawful.append hes,fun j => ?_⟩
    rw [current_append (fun e he => about_none (hes e he))]
    exact ih.current j
  | @post db db' log es h hp ih =>
    rcases posting_jobs hp with ⟨hjobs,rfl⟩ | ⟨row,ho⟩ | ⟨w,old,new,hs⟩
    · exact ⟨ih.lawful,fun j => by rw [hjobs]; exact ih.current j⟩
    · obtain rfl := ho.log
      refine ⟨⟨ih.lawful,?_⟩,fun j => ?_⟩
      · intro x hx
        obtain rfl := Option.some.inj (hx.symm.trans (reading_created row.id))
        exact ⟨(ih.current row.id).trans (by rw [ho.fresh]; rfl),rfl⟩
      · rw [List.singleton_append, current_cons (reading_created row.id), ho.jobs]
        split
        · simp [ho.status]
        · exact ih.current j
    · obtain rfl := hs.log
      have hr := reading_moved (.worker w) old.id old.status new.status new.attempts
      refine ⟨⟨ih.lawful,?_⟩,fun j => ?_⟩
      · intro x hx
        obtain rfl := Option.some.inj (hx.symm.trans hr)
        exact ⟨(ih.current old.id).trans (by rw [hs.row]; rfl),hs.replaces.edge⟩
      · rw [List.singleton_append, current_cons hr, hs.jobs]
        split
        · rfl
        · exact ih.current j

def claims (j : Uuid) : Event → Bool
  | .moved _ i .queued .started _ => i = j
  | _ => false

theorem claims_quiet {e : Event} (h : reading e = none) (j : Uuid) : claims j e = false := by
  cases e <;> first | rfl | cases h

theorem claims_moved {p : Proc} {i j : Uuid} {a b : JobStatus} {n : ℕ} (h : edge a b = true) :
    claims j (.moved p i a b n) = decide (b = .started ∧ i = j) := by
  cases a <;> cases b <;> simp [edge] at h <;> simp [claims]

theorem book_attempts (h : Book db log) (j : Uuid) :
    ((db.jobs.get j).map JobRow.attempts).getD 0 = log.countP (claims j) := by
  induction h with
  | empty => rfl
  | quiet h es hes ih =>
    have : es.countP (claims j) = 0 :=
      List.countP_eq_zero.mpr (fun e he => by simp [claims_quiet (hes e he)])
    rw [List.countP_append, this, ih, Nat.zero_add]
  | @post db db' log es h hp ih =>
    rcases posting_jobs hp with ⟨hjobs,rfl⟩ | ⟨row,ho⟩ | ⟨w,old,new,hs⟩
    · rw [hjobs]
      exact ih
    · obtain rfl := ho.log
      rw [ho.jobs, List.singleton_append, List.countP_cons_of_neg (by simp [claims]), ← ih]
      split
      · rename_i hj
        subst hj
        simp [ho.fresh, ho.attempts]
      · rfl
    · obtain rfl := hs.log
      rw [hs.jobs, List.singleton_append, List.countP_cons, claims_moved hs.replaces.edge]
      by_cases hj : old.id = j
      · subst hj
        rw [hs.row] at ih
        have hn := hs.replaces.attempts
        simp only [Option.map_some, Option.getD_some] at ih
        by_cases hst : new.status = .started <;> simp [hst] at hn ⊢ <;> omega
      · simp [hj, ih]

/-- At most one job of a document is active. -/
theorem book_unique (h : Book db log) {i j : Uuid} {a b : JobRow} (ha : db.jobs.get i = some a)
    (hb : db.jobs.get j = some b) (hact : a.status.active = true) (hact' : b.status.active = true)
    (hacc : a.accountId = b.accountId) (hdoc : a.documentId = b.documentId) : i = j := by
  induction h generalizing i j a b with
  | empty => cases ha
  | quiet h es hes ih => exact ih ha hb hact hact' hacc hdoc
  | @post db db' log es h hp ih =>
    rcases posting_jobs hp with ⟨hjobs,rfl⟩ | ⟨row,ho⟩ | ⟨w,old,new,hs⟩
    · rw [hjobs] at ha hb
      exact ih ha hb hact hact' hacc hdoc
    · have hno := noActive_iff.mp ho.index
      rw [ho.jobs] at ha hb
      split at ha <;> split at hb
      · rename_i hi hj
        rw [← hi, ← hj]
      · obtain rfl := Option.some.inj ha
        exact absurd hdoc.symm (hno j b hb hact' hacc.symm)
      · obtain rfl := Option.some.inj hb
        exact absurd hdoc (hno i a ha hact hacc)
      · exact ih ha hb hact hact' hacc hdoc
    · have hold := active_of_edge hs.replaces.edge
      have hacc₀ := hs.replaces.account
      have hdoc₀ := hs.replaces.document
      rw [hs.jobs] at ha hb
      split at ha <;> split at hb
      · rename_i hi hj
        rw [← hi, ← hj]
      · rename_i hi _
        obtain rfl := Option.some.inj ha
        rw [← hi]
        exact ih hs.row hb hold hact' (hacc₀.symm.trans hacc) (hdoc₀.symm.trans hdoc)
      · rename_i _ hj
        obtain rfl := Option.some.inj hb
        rw [← hj]
        exact ih ha hs.row hact hold (hacc.trans hacc₀) (hdoc.trans hdoc₀)
      · exact ih ha hb hact hact' hacc hdoc

theorem posting_documents {db' : Tables} {es : List Event} (hp : Posting db log es db')
    {id : Uuid} {d : DocumentRow} (h : db.documents.get id = some d) :
    db'.documents.get id = some d := by
  cases hp with
  | document row hfresh hkey => exact Table.get_insert_of_some h
  | _ => exact h

/-- A committed row stays, and changes only along the state machine. -/
theorem posting_evolve {db' : Tables} {es : List Event} (hp : Posting db log es db') {j : Uuid}
    {row : JobRow} (hrow : db.jobs.get j = some row) :
    ∃ row', db'.jobs.get j = some row' ∧ (row' = row ∨ Replaces row row') := by
  rcases posting_jobs hp with ⟨hjobs,rfl⟩ | ⟨x,ho⟩ | ⟨w,old,new,hs⟩
  · exact ⟨row,by rw [hjobs]; exact hrow,Or.inl rfl⟩
  · refine ⟨row,?_,Or.inl rfl⟩
    rw [ho.jobs, if_neg]
    · exact hrow
    · rintro rfl
      rw [ho.fresh] at hrow
      cases hrow
  · rw [hs.jobs]
    by_cases hj : old.id = j
    · subst hj
      obtain rfl := Option.some.inj (hs.row.symm.trans hrow)
      exact ⟨new,if_pos rfl,Or.inr hs.replaces⟩
    · exact ⟨row,by rw [if_neg hj]; exact hrow,Or.inl rfl⟩

/-- What a move makes true of its row, and later moves keep, is true of every
row that the history has moved. -/
theorem book_moved {P : JobRow → Prop} {a b : JobStatus} {n : ℕ}
    (hmoved : ∀ old new, Replaces old new → old.status = a → new.status = b →
      new.attempts = n → P new)
    (hkeep : ∀ old new, Replaces old new → P old → P new) (h : Book db log) {p : Proc} {j : Uuid}
    (he : .moved p j a b n ∈ log) : ∃ row, db.jobs.get j = some row ∧ P row := by
  induction h with
  | empty => cases he
  | quiet h es hes ih =>
    rcases List.mem_append.mp he with he | he
    · have := hes _ he
      simp [reading] at this
    · exact ih he
  | @post db db' log es h hp ih =>
    rcases List.mem_append.mp he with he | he
    · rcases posting_jobs hp with ⟨hjobs,rfl⟩ | ⟨x,ho⟩ | ⟨w,old,new,hs⟩
      · cases he
      · rw [ho.log] at he
        cases List.mem_singleton.mp he
      · rw [hs.log] at he
        obtain ⟨-,rfl,ha,hb,hn⟩ := Event.moved.inj (List.mem_singleton.mp he)
        exact ⟨new,by simp [hs.jobs],hmoved old new hs.replaces ha.symm hb.symm hn.symm⟩
    · obtain ⟨row,hrow,hP⟩ := ih he
      obtain ⟨row',hrow',rfl | hrep⟩ := posting_evolve hp hrow
      · exact ⟨row',hrow',hP⟩
      · exact ⟨row',hrow',hkeep row row' hrep hP⟩

def InBudget (row : JobRow) : Prop :=
  match row.status with
  | .queued => row.attempts < row.maxAttempts
  | .started => 1 ≤ row.attempts ∧ row.attempts ≤ row.maxAttempts
  | .completed => 1 ≤ row.attempts ∧ row.attempts ≤ row.maxAttempts
  | .failed => row.attempts = row.maxAttempts

theorem inBudget_shift {db' : Tables} {es : List Event} {w : ℕ} {old new : JobRow}
    (hs : Shifts db es db' w old new) (h : InBudget old) : InBudget new := by
  obtain ⟨he,-,-,-,hb,hn⟩ := hs.replaces
  have hmore := hs.more
  have hlast := hs.last
  unfold InBudget at h ⊢
  cases ho : old.status <;> cases hnew : new.status <;> simp [ho, hnew, edge] at he hmore hlast hn h ⊢ <;>
    omega

theorem book_budget (h : Book db log) {j : Uuid} {row : JobRow} (hrow : db.jobs.get j = some row)
    (hmax : 1 ≤ row.maxAttempts) : InBudget row := by
  induction h generalizing j row with
  | empty => cases hrow
  | quiet h es hes ih => exact ih hrow hmax
  | @post db db' log es h hp ih =>
    rcases posting_jobs hp with ⟨hjobs,rfl⟩ | ⟨x,ho⟩ | ⟨w,old,new,hs⟩
    · rw [hjobs] at hrow
      exact ih hrow hmax
    · rw [ho.jobs] at hrow
      split at hrow
      · obtain rfl := Option.some.inj hrow
        simp only [InBudget, ho.status, ho.attempts]
        omega
      · exact ih hrow hmax
    · rw [hs.jobs] at hrow
      split at hrow
      · obtain rfl := Option.some.inj hrow
        exact inBudget_shift hs (ih hs.row (hs.replaces.budget ▸ hmax))
      · exact ih hrow hmax

/-- A job belongs to the owner of its document. -/
theorem book_owner (h : Book db log) {j : Uuid} {row : JobRow} (hrow : db.jobs.get j = some row) :
    ∃ d, db.documents.get row.documentId = some d ∧ d.accountId = row.accountId := by
  induction h generalizing j row with
  | empty => cases hrow
  | quiet h es hes ih => exact ih hrow
  | @post db db' log es h hp ih =>
    have hkeep : ∀ {account id}, (∃ d, db.documents.get id = some d ∧ d.accountId = account) →
        ∃ d, db'.documents.get id = some d ∧ d.accountId = account := by
      rintro account id ⟨d,hd,ha⟩
      exact ⟨d,posting_documents hp hd,ha⟩
    rcases posting_jobs hp with ⟨hjobs,rfl⟩ | ⟨x,ho⟩ | ⟨w,old,new,hs⟩
    · rw [hjobs] at hrow
      exact hkeep (ih hrow)
    · rw [ho.jobs] at hrow
      split at hrow
      · obtain rfl := Option.some.inj hrow
        exact hkeep ho.owner
      · exact hkeep (ih hrow)
    · rw [hs.jobs] at hrow
      split at hrow
      · obtain rfl := Option.some.inj hrow
        rw [hs.replaces.document, hs.replaces.account]
        exact hkeep (ih hs.row)
      · exact hkeep (ih hrow)

/-- The object key of a document is built from its owner and its identifier. -/
theorem book_rawKey (h : Book db log) {id : Uuid} {d : DocumentRow}
    (hd : db.documents.get id = some d) : d.objectKey = rawKey d.accountId id := by
  induction h generalizing id d with
  | empty => cases hd
  | quiet h es hes ih => exact ih hd
  | @post db db' log es h hp ih =>
    cases hp with
    | document row hfresh hkey =>
      rcases Table.get_insert_cases hd with hd | ⟨hid,rfl⟩
      · exact ih hd
      · rw [hkey, hid]
    | _ => exact ih hd

end Book

end DocPipeline.Bookkeeping
