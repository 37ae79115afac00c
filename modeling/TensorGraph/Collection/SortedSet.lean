/-
Finite sets kept as strictly ascending lists: membership, insertion and removal, with one lemma on
membership for each operation. Walking a set meets its members in ascending order.
-/
namespace TensorGraph

universe u

/-- A finite set as its members in strictly ascending order. -/
structure SortedSet (κ : Type u) [Ord κ] where
  toList : List κ
  ascending : toList.Pairwise fun a b => compare a b = .lt

namespace SortedSet

variable {κ : Type u} [Ord κ]

/-- The set without members. -/
def empty : SortedSet κ := ⟨[], .nil⟩

instance : EmptyCollection (SortedSet κ) := ⟨empty⟩

instance : Inhabited (SortedSet κ) := ⟨empty⟩

instance [DecidableEq κ] : DecidableEq (SortedSet κ) := fun a b =>
  if h : a.toList = b.toList then
    isTrue (by cases a; cases b; simp_all)
  else
    isFalse fun e => h (by rw [e])

instance : Membership κ (SortedSet κ) := ⟨fun s k => k ∈ s.toList⟩

/-- Whether `k` is a member. -/
def contains (s : SortedSet κ) (k : κ) : Bool :=
  s.toList.any fun a => compare a k == .eq

/-- The number of members. -/
def size (s : SortedSet κ) : Nat := s.toList.length

/-- Whether there is no member. -/
def isEmpty (s : SortedSet κ) : Bool := s.toList.isEmpty

/-- Puts `k` at its place in an ascending list, unless it stands there already. -/
def insertKey (k : κ) : List κ → List κ
  | [] => [k]
  | a :: rest =>
    match compare k a with
    | .lt => k :: a :: rest
    | .eq => a :: rest
    | .gt => a :: insertKey k rest

theorem eq_or_mem_of_mem_insertKey {k a : κ} {l : List κ} (h : a ∈ insertKey k l) : a = k ∨ a ∈ l := by
  induction l with
  | nil => simpa [insertKey] using h
  | cons b rest ih =>
    rw [insertKey] at h
    split at h <;> simp only [List.mem_cons] at h ⊢ <;> grind

theorem pairwise_insertKey [Std.TransOrd κ] (k : κ) {l : List κ}
    (h : l.Pairwise fun a b => compare a b = .lt) :
    (insertKey k l).Pairwise fun a b => compare a b = .lt := by
  induction l with
  | nil => simp [insertKey]
  | cons b rest ih =>
    rw [List.pairwise_cons] at h
    rw [insertKey]
    split
    next hlt =>
      refine List.pairwise_cons.2 ⟨?_, List.pairwise_cons.2 h⟩
      intro a ha
      rcases List.mem_cons.1 ha with rfl | ha
      · exact hlt
      · exact Std.TransCmp.lt_trans hlt (h.1 a ha)
    next => exact List.pairwise_cons.2 h
    next hgt =>
      refine List.pairwise_cons.2 ⟨fun a ha => ?_, ih h.2⟩
      rcases eq_or_mem_of_mem_insertKey ha with rfl | ha
      · exact Std.OrientedCmp.gt_iff_lt.1 hgt
      · exact h.1 a ha

/-- Adds `k`. -/
def insert [Std.TransOrd κ] (s : SortedSet κ) (k : κ) : SortedSet κ :=
  ⟨insertKey k s.toList, pairwise_insertKey k s.ascending⟩

/-- Takes `k` out. -/
def erase (s : SortedSet κ) (k : κ) : SortedSet κ :=
  ⟨s.toList.filter fun a => compare a k != .eq, s.ascending.filter _⟩

/-- Adds the members of a list. -/
def insertMany [Std.TransOrd κ] (s : SortedSet κ) (l : List κ) : SortedSet κ :=
  l.foldl insert s

/-- The members of a list. -/
def ofList [Std.TransOrd κ] (l : List κ) : SortedSet κ := empty.insertMany l

/-- The members of `s` that satisfy `p`. -/
def filter (s : SortedSet κ) (p : κ → Bool) : SortedSet κ :=
  ⟨s.toList.filter p, s.ascending.filter _⟩

/-! ## Membership -/

@[simp] theorem not_mem_empty (k : κ) : k ∉ (empty : SortedSet κ) := List.not_mem_nil

theorem contains_iff [Std.LawfulEqOrd κ] {s : SortedSet κ} {k : κ} : s.contains k = true ↔ k ∈ s := by
  simp only [contains, List.any_eq_true, beq_iff_eq]
  constructor
  · rintro ⟨a, ha, h⟩
    exact Std.LawfulEqCmp.eq_of_compare h ▸ ha
  · exact fun h => ⟨k, h, Std.compare_self⟩

theorem mem_insert [Std.TransOrd κ] [Std.LawfulEqOrd κ] {s : SortedSet κ} {k a : κ} :
    a ∈ s.insert k ↔ a = k ∨ a ∈ s := by
  obtain ⟨l, h⟩ := s
  change a ∈ insertKey k l ↔ a = k ∨ a ∈ l
  refine ⟨eq_or_mem_of_mem_insertKey, fun hm => ?_⟩
  clear h
  induction l with
  | nil => simpa [insertKey] using hm
  | cons b rest ih =>
    rw [insertKey]
    split
    next => simpa using hm
    next heq =>
      have := Std.LawfulEqCmp.eq_of_compare heq
      rcases hm with rfl | hm
      · simp [this]
      · exact hm
    next =>
      rcases hm with rfl | hm
      · simp [ih (.inl rfl)]
      · rcases List.mem_cons.1 hm with rfl | hm
        · simp
        · simp [ih (.inr hm)]

theorem mem_erase [Std.LawfulEqOrd κ] {s : SortedSet κ} {k a : κ} : a ∈ s.erase k ↔ a ∈ s ∧ a ≠ k := by
  change a ∈ List.filter _ _ ↔ _
  rw [List.mem_filter]
  simp [Membership.mem]

end SortedSet

end TensorGraph
