import Mathlib.Tactic

/-!
# Tables with a unique key

A table is a finite list of rows in which no key occurs twice; the proof is
a field, so every operation has to keep it. Reads go through the key, and
each operation comes with the equation for the reads after it.
-/

set_option autoImplicit false

namespace KeyedTable

variable {κ ρ : Type} [DecidableEq κ] {key : ρ → κ}

structure Table (key : ρ → κ) where
  rows : List ρ
  nodup : (rows.map key).Nodup

namespace Table

def empty : Table key := ⟨[],List.nodup_nil⟩

def get (t : Table key) (k : κ) : Option ρ := t.rows.find? (fun r => key r = k)

theorem get_empty (k : κ) : (empty : Table key).get k = none := rfl

theorem key_of_get {t : Table key} {k : κ} {r : ρ} (h : t.get k = some r) : key r = k := by
  simpa using List.find?_some h

theorem mem_of_get {t : Table key} {k : κ} {r : ρ} (h : t.get k = some r) : r ∈ t.rows :=
  List.mem_of_find?_eq_some h

theorem get_of_mem {t : Table key} {r : ρ} (h : r ∈ t.rows) : t.get (key r) = some r := by
  obtain ⟨rows,hn⟩ := t
  simp only [get] at *
  induction rows with
  | nil => simp at h
  | cons x rows ih =>
    obtain ⟨hx,hr⟩ := List.nodup_cons.mp hn
    rcases List.mem_cons.mp h with rfl | hm
    · simp
    · have hne : key x ≠ key r := fun he => hx (he ▸ List.mem_map_of_mem hm)
      simpa [hne] using ih hr hm

theorem not_mem_of_get {t : Table key} {k : κ} (h : t.get k = none) : k ∉ t.rows.map key := by
  intro hk
  obtain ⟨r,hr,rfl⟩ := List.mem_map.mp hk
  simp [get_of_mem hr] at h

/-- Rows whose key is taken are refused; the table is then unchanged. -/
def insert (t : Table key) (r : ρ) : Table key :=
  if h : t.get (key r) = none then ⟨r::t.rows,List.nodup_cons.mpr ⟨not_mem_of_get h,t.nodup⟩⟩
  else t

theorem get_insert {t : Table key} {r : ρ} (h : t.get (key r) = none) (k : κ) :
    (t.insert r).get k = if key r = k then some r else t.get k := by
  simp only [insert, h, dite_true]
  by_cases hk : key r = k <;> simp [get, hk]

theorem get_insert_of_some {t : Table key} {r x : ρ} {k : κ} (h : t.get k = some x) :
    (t.insert r).get k = some x := by
  by_cases hr : t.get (key r) = none
  · rw [get_insert hr]
    have : key r ≠ k := by
      rintro rfl
      simp [hr] at h
    simp [this, h]
  · simp [insert, hr, h]

theorem get_insert_cases {t : Table key} {r x : ρ} {k : κ} (h : (t.insert r).get k = some x) :
    t.get k = some x ∨ (key r = k ∧ x = r) := by
  by_cases hr : t.get (key r) = none
  · rw [get_insert hr] at h
    split at h
    · rename_i hk
      exact Or.inr ⟨hk,(Option.some.inj h).symm⟩
    · exact Or.inl h
  · rw [insert, dif_neg hr] at h
    exact Or.inl h

def put (t : Table key) (r : ρ) : Table key where
  rows := t.rows.map (fun x => if key x = key r then r else x)
  nodup := by
    have hk : (t.rows.map (fun x => if key x = key r then r else x)).map key = t.rows.map key := by
      rw [List.map_map]
      apply List.map_congr_left
      intro x _
      simp only [Function.comp]
      split
      · rename_i h
        exact h.symm
      · rfl
    rw [hk]
    exact t.nodup

theorem get_put (t : Table key) (r : ρ) (k : κ) :
    (t.put r).get k = if key r = k then (t.get k).map (fun _ => r) else t.get k := by
  obtain ⟨rows,hn⟩ := t
  simp only [get, put]
  induction rows with
  | nil => simp
  | cons x rows ih =>
    have ih := ih (List.nodup_cons.mp hn).2
    by_cases hx : key x = key r
    · by_cases hk : key r = k
      · simp [hx, hk]
      · simpa [hx, hk] using ih
    · by_cases hk : key x = k
      · have : key r ≠ k := fun h => hx (hk.trans h.symm)
        rw [List.map_cons, if_neg hx, List.find?_cons_of_pos (by simp [hk]), if_neg this,
          List.find?_cons_of_pos (by simp [hk])]
      · by_cases hr : key r = k
        · simpa [hx, hk, hr, show ¬ key x = k from hk] using ih
        · simpa [hx, hk, hr] using ih

/-- Insert `r`, or merge it into the row that already has its key. -/
def upsert (t : Table key) (merge : ρ → ρ → ρ) (r : ρ) : Table key :=
  match t.get (key r) with
  | some old => t.put (merge old r)
  | none => t.insert r

theorem get_upsert {t : Table key} {merge : ρ → ρ → ρ} {r : ρ}
    (hm : ∀ old, key (merge old r) = key old) (k : κ) :
    (t.upsert merge r).get k =
      if key r = k then some (((t.get k).map (merge · r)).getD r) else t.get k := by
  unfold upsert
  cases h : t.get (key r) with
  | none =>
    simp only [get_insert h]
    by_cases hk : key r = k
    · subst hk
      simp [h]
    · simp [hk]
  | some old =>
    have hold : key (merge old r) = key r := (hm old).trans (key_of_get h)
    simp only [get_put, hold]
    by_cases hk : key r = k
    · subst hk
      simp [h]
    · simp [hk]

/-- Rows that a test passes over do not show in the filtered table. -/
theorem filter_insert (t : Table key) (r : ρ) (test : ρ → Bool) (h : test r = false) :
    (t.insert r).rows.filter test = t.rows.filter test := by
  unfold insert
  split
  · simp [h]
  · rfl

theorem filter_put (t : Table key) (r : ρ) (test : ρ → Bool)
    (h : ∀ x, key x = key r → test x = false) :
    (t.put r).rows.filter test = t.rows.filter test := by
  obtain ⟨rows,hn⟩ := t
  simp only [put]
  clear hn
  induction rows with
  | nil => rfl
  | cons x rows ih =>
    by_cases hx : key x = key r
    · simp [hx, h x hx, h r rfl, ih]
    · simp [List.filter_cons, hx, ih]

/-- A sum over the rows of a table gains the share of an inserted row. -/
theorem sum_insert (t : Table key) (r : ρ) (f : ρ → ℕ) (h : t.get (key r) = none) :
    ((t.insert r).rows.map f).sum = f r+(t.rows.map f).sum := by
  rw [insert, dif_pos h, List.map_cons, List.sum_cons]

/-- A replaced row gives up its share of a sum for that of its successor. -/
theorem sum_put {t : Table key} {old new : ρ} (f : ρ → ℕ) (hold : t.get (key old) = some old)
    (hkey : key new = key old) :
    ((t.put new).rows.map f).sum+f old = (t.rows.map f).sum+f new := by
  obtain ⟨rows,hn⟩ := t
  simp only [get, put] at *
  induction rows with
  | nil => cases hold
  | cons x rows ih =>
    obtain ⟨hx,hn⟩ := List.nodup_cons.mp hn
    by_cases h : key x = key old
    · obtain rfl : x = old := by simpa [h] using hold
      have hrest : rows.map (fun y => if key y = key new then new else y) = rows := by
        refine (List.map_congr_left (fun y hy => if_neg ?_)).trans (List.map_id rows)
        intro hy'
        exact hx (List.mem_map.mpr ⟨y,hy,hy'.trans hkey⟩)
      simp only [List.map_cons, hkey, if_true, List.sum_cons]
      rw [hkey] at hrest
      rw [hrest]
      omega
    · have hget : rows.find? (fun r => key r = key old) = some old := by simpa [h] using hold
      have := ih hn hget
      have hne : key x ≠ key new := fun hk => h (hk.trans hkey)
      simp only [List.map_cons, if_neg hne, List.sum_cons]
      omega

end Table

end KeyedTable
