/-
Dictionaries whose entries stand in strictly ascending key order. The order is part of the type, so two
dictionaries with the same look-ups are equal, and whatever walks the entries meets them in key order.
Main statements: what a look-up finds after `insert`, `erase` and `modify`, and extensionality.
-/
namespace TensorGraph

universe u v

/-- A finite map as its entries in strictly ascending key order. -/
structure Dict (κ : Type u) (α : Type v) [Ord κ] where
  entries : List (κ × α)
  ascending : entries.Pairwise fun a b => compare a.1 b.1 = .lt

namespace Dict

variable {κ : Type u} {α : Type v} {β : Type v} [Ord κ]

/-- The map without entries. -/
def empty : Dict κ α := ⟨[], .nil⟩

instance : EmptyCollection (Dict κ α) := ⟨empty⟩

instance : Inhabited (Dict κ α) := ⟨empty⟩

instance [DecidableEq κ] [DecidableEq α] : DecidableEq (Dict κ α) := fun a b =>
  if h : a.entries = b.entries then
    isTrue (by cases a; cases b; simp_all)
  else
    isFalse fun e => h (by rw [e])

/-- The value stored under `k`. -/
def get? (d : Dict κ α) (k : κ) : Option α :=
  (d.entries.find? fun e => compare e.1 k == .eq).map (·.2)

/-- Whether some value is stored under `k`. -/
def contains (d : Dict κ α) (k : κ) : Bool :=
  d.entries.any fun e => compare e.1 k == .eq

/-- The keys, ascending. -/
def keys (d : Dict κ α) : List κ := d.entries.map (·.1)

/-- The values in the order of their keys. -/
def values (d : Dict κ α) : List α := d.entries.map (·.2)

/-- The number of entries. -/
def size (d : Dict κ α) : Nat := d.entries.length

/-- Whether there is no entry. -/
def isEmpty (d : Dict κ α) : Bool := d.entries.isEmpty

/-- Puts `(k, v)` at its place in an ascending list; an entry with the key `k` gives way to it. -/
def insertEntry (k : κ) (v : α) : List (κ × α) → List (κ × α)
  | [] => [(k, v)]
  | e :: rest =>
    match compare k e.1 with
    | .lt => (k, v) :: e :: rest
    | .eq => (k, v) :: rest
    | .gt => e :: insertEntry k v rest

theorem key_of_mem_insertEntry {k : κ} {v : α} {l : List (κ × α)} {e : κ × α}
    (h : e ∈ insertEntry k v l) : e = (k, v) ∨ e ∈ l := by
  induction l with
  | nil => simpa [insertEntry] using h
  | cons a rest ih =>
    rw [insertEntry] at h
    split at h <;> simp only [List.mem_cons] at h ⊢ <;> grind

theorem pairwise_insertEntry [Std.TransOrd κ] (k : κ) (v : α) {l : List (κ × α)}
    (h : l.Pairwise fun a b => compare a.1 b.1 = .lt) :
    (insertEntry k v l).Pairwise fun a b => compare a.1 b.1 = .lt := by
  induction l with
  | nil => simp [insertEntry]
  | cons e rest ih =>
    rw [List.pairwise_cons] at h
    rw [insertEntry]
    split
    next hlt =>
      refine List.pairwise_cons.2 ⟨?_, List.pairwise_cons.2 h⟩
      intro a ha
      rcases List.mem_cons.1 ha with rfl | ha
      · exact hlt
      · exact Std.TransCmp.lt_trans hlt (h.1 a ha)
    next heq =>
      refine List.pairwise_cons.2 ⟨fun a ha => ?_, h.2⟩
      exact Std.TransCmp.lt_of_eq_of_lt heq (h.1 a ha)
    next hgt =>
      refine List.pairwise_cons.2 ⟨fun a ha => ?_, ih h.2⟩
      rcases key_of_mem_insertEntry ha with rfl | ha
      · exact Std.OrientedCmp.gt_iff_lt.1 hgt
      · exact h.1 a ha

/-- Stores `v` under `k`, in place of what stood there. -/
def insert [Std.TransOrd κ] (d : Dict κ α) (k : κ) (v : α) : Dict κ α :=
  ⟨insertEntry k v d.entries, pairwise_insertEntry k v d.ascending⟩

/-- Drops the entry of `k`. -/
def erase (d : Dict κ α) (k : κ) : Dict κ α :=
  ⟨d.entries.filter fun e => compare e.1 k != .eq, d.ascending.filter _⟩

/-- Applies `f` to every value. -/
def map (d : Dict κ α) (f : κ → α → β) : Dict κ β :=
  ⟨d.entries.map fun e => (e.1, f e.1 e.2), by
    rw [List.pairwise_map]; exact d.ascending⟩

/-- Applies `f` to the value under `k`, if there is one. -/
def modify (d : Dict κ α) (k : κ) (f : α → α) : Dict κ α :=
  d.map fun k' v => if compare k' k == .eq then f v else v

/-- Inserts the pairs one after the other, so the last of two with the same key stays. -/
def ofList [Std.TransOrd κ] (l : List (κ × α)) : Dict κ α :=
  l.foldl (fun d e => d.insert e.1 e.2) empty

/-! ## Look-ups -/

@[simp] theorem get?_empty (k : κ) : (empty : Dict κ α).get? k = none := rfl

theorem get?_eq_some_iff [Std.TransOrd κ] [Std.LawfulEqOrd κ] {d : Dict κ α} {k : κ} {v : α} :
    d.get? k = some v ↔ (k, v) ∈ d.entries := by
  obtain ⟨l, h⟩ := d
  unfold get?
  induction l with
  | nil => simp
  | cons e rest ih =>
    rw [List.pairwise_cons] at h
    rw [List.find?_cons]
    by_cases he : compare e.1 k = .eq
    · have hk := Std.LawfulEqCmp.eq_of_compare he
      have hout : (k, v) ∉ rest := fun hm => by
        have := h.1 _ hm
        simp [he] at this
      simp only [he, beq_self_eq_true, Option.map_some, Option.some.injEq, List.mem_cons, hout, or_false]
      exact ⟨fun hv => by rw [← hk, ← hv], fun hv => by rw [← hv]⟩
    · have hne : (k, v) ≠ e := fun hv => he (by rw [← hv]; exact Std.compare_self)
      have hb : (compare e.1 k == .eq) = false := by simpa using he
      simp only [hb, List.mem_cons, hne, false_or]
      exact ih h.2

theorem contains_eq_isSome (d : Dict κ α) (k : κ) : d.contains k = (d.get? k).isSome := by
  rw [Bool.eq_iff_iff]
  simp [contains, get?, List.find?_isSome]

/-- Two dictionaries that agree on every look-up are equal. -/
theorem ext_get? [Std.TransOrd κ] [Std.LawfulEqOrd κ] {a b : Dict κ α}
    (h : ∀ k, a.get? k = b.get? k) : a = b := by
  have hmem : ∀ e, e ∈ a.entries ↔ e ∈ b.entries := fun e => by
    rw [← get?_eq_some_iff (d := a), ← get?_eq_some_iff (d := b), h]
  obtain ⟨l, hl⟩ := a
  obtain ⟨m, hm⟩ := b
  simp only [mk.injEq]
  clear h
  induction l generalizing m with
  | nil =>
    cases m with
    | nil => rfl
    | cons e m => exact absurd ((hmem e).2 (by simp)) (by simp)
  | cons x l ih =>
    cases m with
    | nil => exact absurd ((hmem x).1 (by simp)) (by simp)
    | cons y m =>
      rw [List.pairwise_cons] at hl hm
      have irrefl : ∀ z : κ × α, compare z.1 z.1 ≠ .lt := fun z => by simp [Std.compare_self]
      have hxy : x = y := by
        rcases List.mem_cons.1 ((hmem x).1 (by simp)) with h1 | h1
        · exact h1
        · rcases List.mem_cons.1 ((hmem y).2 (by simp)) with h2 | h2
          · exact h2.symm
          · exact absurd (Std.TransCmp.lt_trans (hl.1 _ h2) (hm.1 _ h1)) (irrefl x)
      subst hxy
      have htail : l = m := by
        refine ih hl.2 m hm.2 fun e => ⟨fun he => ?_, fun he => ?_⟩
        · rcases List.mem_cons.1 ((hmem e).1 (List.mem_cons_of_mem _ he)) with h1 | h1
          · exact absurd (h1 ▸ hl.1 _ he) (irrefl x)
          · exact h1
        · rcases List.mem_cons.1 ((hmem e).2 (List.mem_cons_of_mem _ he)) with h1 | h1
          · exact absurd (h1 ▸ hm.1 _ he) (irrefl x)
          · exact h1
      rw [htail]

theorem get?_insert [Std.TransOrd κ] [Std.LawfulEqOrd κ] [DecidableEq κ] (d : Dict κ α) (k k' : κ) (v : α) :
    (d.insert k v).get? k' = if k = k' then some v else d.get? k' := by
  obtain ⟨l, h⟩ := d
  unfold get? insert
  simp only
  clear h
  induction l with
  | nil =>
    by_cases hk : k = k'
    · simp [insertEntry, hk]
    · have : (compare k k' == .eq) = false := by
        simpa using hk
      simp [insertEntry, hk, this]
  | cons e rest ih =>
    rw [insertEntry]
    by_cases hk : k = k'
    · subst hk
      split
      next hlt => simp
      next heq => simp
      next hgt =>
        have : (compare e.1 k == .eq) = false := by
          have := Std.OrientedCmp.gt_iff_lt.1 hgt
          simp [this]
        simpa [List.find?_cons, this] using ih
    · have hkk : (compare k k' == .eq) = false := by
        simpa using hk
      split
      next hlt => simp [List.find?_cons, hkk, hk]
      next heq =>
        have := Std.LawfulEqCmp.eq_of_compare heq
        simp [← this, hkk, hk]
      next hgt =>
        rw [List.find?_cons, List.find?_cons]
        split
        · simp [hk]
        · simpa [hk] using ih

theorem get?_erase [Std.TransOrd κ] [Std.LawfulEqOrd κ] [DecidableEq κ] (d : Dict κ α) (k k' : κ) :
    (d.erase k).get? k' = if k = k' then none else d.get? k' := by
  apply Option.ext
  intro v
  rw [get?_eq_some_iff, erase, List.mem_filter]
  by_cases hk : k = k'
  · simp [hk]
  · have : compare k' k ≠ .eq := fun h => hk (Std.LawfulEqCmp.eq_of_compare h).symm
    simp [hk, this, get?_eq_some_iff]

theorem get?_map (d : Dict κ α) (f : κ → α → β) (k : κ) [Std.LawfulEqOrd κ] :
    (d.map f).get? k = (d.get? k).map (f k) := by
  obtain ⟨l, h⟩ := d
  unfold get? map
  simp only
  clear h
  induction l with
  | nil => rfl
  | cons e rest ih =>
    rw [List.map_cons, List.find?_cons, List.find?_cons]
    by_cases he : compare e.1 k = .eq
    · have := Std.LawfulEqCmp.eq_of_compare he
      simp [this]
    · have hb : (compare e.1 k == .eq) = false := by simpa using he
      simpa only [hb] using ih

theorem get?_modify [Std.LawfulEqOrd κ] [DecidableEq κ] (d : Dict κ α) (k k' : κ) (f : α → α) :
    (d.modify k f).get? k' = if k = k' then (d.get? k').map f else d.get? k' := by
  rw [modify, get?_map]
  by_cases hk : k = k'
  · simp [hk]
  · have : (compare k' k == .eq) = false := by
      simpa using Ne.symm hk
    simp [hk, this]

end Dict

end TensorGraph
