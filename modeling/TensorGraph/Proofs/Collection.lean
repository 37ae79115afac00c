import Mathlib.Data.List.Forall2
import Mathlib.Data.List.Nodup
import Mathlib.Data.List.Perm.Subperm
import Mathlib.Data.List.Sort
import TensorGraph.Collection.Dict
import TensorGraph.Collection.SortedSet

/-!
What the proofs use of the collections beyond the laws that stand beside them: sets with the same members are
equal, the members of a set that was built from a list, and the entries of a dictionary as look-ups. Lists whose
members are all mapped to something, and sorted lists, come first.
-/
namespace TensorGraph

universe u v w

/-! ## Lists mapped to options -/

section Lists

variable {α : Type u} {β : Type v} {f h : α → Option β}

theorem mapM_congr_of_mem : ∀ {l : List α}, (∀ a ∈ l, f a = h a) → l.mapM f = l.mapM h
  | [], _ => rfl
  | a :: l, hfh => by
    rw [List.mapM_cons, List.mapM_cons, hfh a (by simp),
      mapM_congr_of_mem fun b hb => hfh b (List.mem_cons_of_mem _ hb)]

theorem mapM_eq_some_iff : ∀ {l : List α} {m : List β},
    l.mapM f = some m ↔ List.Forall₂ (fun a b => f a = some b) l m
  | [], m => by
    rw [List.mapM_nil]
    constructor
    · intro h
      cases h
      exact .nil
    · rintro (_ | _)
      rfl
  | a :: l, m => by
    rw [List.mapM_cons]
    constructor
    · intro h
      obtain ⟨b, hb, h⟩ := Option.bind_eq_some_iff.1 h
      obtain ⟨m', hm, h⟩ := Option.bind_eq_some_iff.1 h
      cases h
      exact .cons hb (mapM_eq_some_iff.1 hm)
    · rintro (_ | ⟨hb, hm⟩)
      exact Option.bind_eq_some_iff.2 ⟨_, hb, Option.bind_eq_some_iff.2 ⟨_, mapM_eq_some_iff.2 hm, rfl⟩⟩

theorem exists_of_forall₂ {R : α → β → Prop} {l : List α} {m : List β} (h : List.Forall₂ R l m) :
    ∀ a ∈ l, ∃ b ∈ m, R a b := by
  induction h with
  | nil => exact nofun
  | cons hab _ ih =>
    intro a ha
    rcases List.mem_cons.1 ha with rfl | ha
    · exact ⟨_, by simp, hab⟩
    · obtain ⟨b, hb, hR⟩ := ih a ha
      exact ⟨b, List.mem_cons_of_mem _ hb, hR⟩

theorem forall₂_trans {γ : Type w} {R : α → β → Prop} {S : β → γ → Prop} {T : α → γ → Prop} {l : List α} {m : List β}
    {n : List γ} (hT : ∀ {a b c}, R a b → S b c → T a c) (hlm : List.Forall₂ R l m) (hmn : List.Forall₂ S m n) :
    List.Forall₂ T l n := by
  induction hlm generalizing n with
  | nil =>
    cases hmn
    exact .nil
  | cons hab _ ih =>
    cases hmn with
    | cons hbc hmn => exact .cons (hT hab hbc) (ih hmn)

theorem eq_map_of_forall₂ {φ : α → β} {l : List α} {m : List β}
    (h : List.Forall₂ (fun a b => b = φ a) l m) : m = l.map φ := by
  induction h with
  | nil => rfl
  | cons hab _ ih => rw [List.map_cons, hab, ih]

theorem exists_of_mapM_eq_some {l : List α} {m : List β} (hm : l.mapM f = some m) : ∀ a ∈ l, ∃ b, f a = some b := by
  intro a ha
  obtain ⟨b, -, hb⟩ := exists_of_forall₂ (mapM_eq_some_iff.1 hm) a ha
  exact ⟨b, hb⟩

end Lists

/-- A stable sort inserts each element in its turn, which can be evaluated. -/
theorem mergeSort_eq_insertionSort {α : Type} {le : α → α → Bool} (htrans : ∀ a b c, le a b → le b c → le a c)
    (htotal : ∀ a b, (le a b || le b a) = true) : ∀ l : List α, l.mergeSort le = l.insertionSort (le · ·)
  | [] => by simp
  | a :: l => by
    obtain ⟨l₁, l₂, hall, hrest, hbefore⟩ := List.mergeSort_cons htrans htotal a l
    have hsorted := List.pairwise_mergeSort htrans htotal (a :: l)
    rw [hall] at hsorted ⊢
    rw [List.insertionSort_cons, ← mergeSort_eq_insertionSort htrans htotal l, hrest]
    clear hall hrest
    induction l₁ with
    | nil =>
      cases l₂ with
      | nil => rfl
      | cons b l₂ =>
        have hle := (List.pairwise_cons.1 hsorted).1 b List.mem_cons_self
        rw [List.nil_append, List.nil_append, List.orderedInsert_cons, if_pos hle]
    | cons b l₁ ih =>
      have hb := hbefore b List.mem_cons_self
      rw [List.cons_append, List.cons_append, List.orderedInsert_cons, if_neg (by simpa using hb),
        ← ih (fun c hc => hbefore c (List.mem_cons_of_mem _ hc)) (List.pairwise_cons.1 hsorted).2]

namespace SortedSet

variable {κ : Type u} [Ord κ]

theorem mem_toList {s : SortedSet κ} {k : κ} : k ∈ s.toList ↔ k ∈ s := Iff.rfl

theorem contains_eq_false_iff [Std.LawfulEqOrd κ] {s : SortedSet κ} {k : κ} : s.contains k = false ↔ k ∉ s := by
  rw [← contains_iff, Bool.not_eq_true]

theorem pairwise_ext [Std.TransOrd κ] : ∀ {l m : List κ}, l.Pairwise (fun a b => compare a b = .lt) →
    m.Pairwise (fun a b => compare a b = .lt) → (∀ k, k ∈ l ↔ k ∈ m) → l = m
  | [], [], _, _, _ => rfl
  | [], b :: m, _, _, h => absurd ((h b).2 (by simp)) (by simp)
  | a :: l, [], _, _, h => absurd ((h a).1 (by simp)) (by simp)
  | a :: l, b :: m, hl, hm, h => by
    rw [List.pairwise_cons] at hl hm
    have irrefl : ∀ k : κ, compare k k ≠ .lt := fun k => by simp [Std.compare_self]
    have hab : a = b := by
      rcases List.mem_cons.1 ((h a).1 (by simp)) with h1 | h1
      · exact h1
      · rcases List.mem_cons.1 ((h b).2 (by simp)) with h2 | h2
        · exact h2.symm
        · exact absurd (Std.TransCmp.lt_trans (hl.1 _ h2) (hm.1 _ h1)) (irrefl a)
    subst hab
    refine congrArg _ (pairwise_ext hl.2 hm.2 fun k => ⟨fun hk => ?_, fun hk => ?_⟩)
    · rcases List.mem_cons.1 ((h k).1 (List.mem_cons_of_mem _ hk)) with rfl | h1
      · exact absurd (hl.1 _ hk) (irrefl _)
      · exact h1
    · rcases List.mem_cons.1 ((h k).2 (List.mem_cons_of_mem _ hk)) with rfl | h1
      · exact absurd (hm.1 _ hk) (irrefl _)
      · exact h1

/-- Two sets with the same members are equal. -/
theorem ext_mem [Std.TransOrd κ] {a b : SortedSet κ} (h : ∀ k, k ∈ a ↔ k ∈ b) : a = b := by
  obtain ⟨l, hl⟩ := a
  obtain ⟨m, hm⟩ := b
  simp only [mk.injEq]
  exact pairwise_ext hl hm h

theorem nodup_toList [Std.TransOrd κ] (s : SortedSet κ) : s.toList.Nodup := by
  refine s.ascending.imp fun {a b} hab => ?_
  rintro rfl
  simp [Std.compare_self] at hab

theorem insert_of_mem [Std.TransOrd κ] [Std.LawfulEqOrd κ] {s : SortedSet κ} {k : κ} (h : k ∈ s) :
    s.insert k = s := by
  refine ext_mem fun a => ?_
  rw [mem_insert]
  exact ⟨fun ha => ha.elim (fun e => e ▸ h) id, .inr⟩

theorem erase_of_not_mem [Std.TransOrd κ] [Std.LawfulEqOrd κ] {s : SortedSet κ} {k : κ} (h : k ∉ s) :
    s.erase k = s := by
  refine ext_mem fun a => ?_
  rw [mem_erase]
  exact ⟨And.left, fun ha => ⟨ha, fun e => h (e ▸ ha)⟩⟩

theorem mem_insertMany [Std.TransOrd κ] [Std.LawfulEqOrd κ] {k : κ} :
    ∀ {l : List κ} {s : SortedSet κ}, k ∈ s.insertMany l ↔ k ∈ l ∨ k ∈ s
  | [], s => by simp [insertMany]
  | a :: l, s => by
    have ih : k ∈ (s.insert a).insertMany l ↔ k ∈ l ∨ k ∈ s.insert a := mem_insertMany
    rw [mem_insert] at ih
    simp only [insertMany, List.foldl_cons] at ih ⊢
    rw [ih, List.mem_cons]
    tauto

theorem mem_ofList [Std.TransOrd κ] [Std.LawfulEqOrd κ] {k : κ} {l : List κ} : k ∈ ofList l ↔ k ∈ l := by
  rw [ofList, mem_insertMany]
  simp

theorem mem_filter {s : SortedSet κ} {p : κ → Bool} {k : κ} : k ∈ s.filter p ↔ k ∈ s ∧ p k = true :=
  List.mem_filter

theorem isEmpty_eq_false_iff {s : SortedSet κ} : s.isEmpty = false ↔ ∃ k, k ∈ s := by
  rw [isEmpty, List.isEmpty_eq_false_iff_exists_mem]
  rfl

end SortedSet

namespace Dict

variable {κ : Type u} {α : Type v} [Ord κ] [Std.TransOrd κ] [Std.LawfulEqOrd κ]

theorem mem_values {d : Dict κ α} {x : α} : x ∈ d.values ↔ ∃ k, d.get? k = some x := by
  simp only [values, List.mem_map, get?_eq_some_iff]
  exact ⟨fun ⟨e, he, h⟩ => ⟨e.1, h ▸ he⟩, fun ⟨k, h⟩ => ⟨(k, x), h, rfl⟩⟩

omit [Std.TransOrd κ] [Std.LawfulEqOrd κ] in
theorem contains_iff {d : Dict κ α} {k : κ} : d.contains k = true ↔ ∃ x, d.get? k = some x := by
  rw [contains_eq_isSome, Option.isSome_iff_exists]

omit [Std.TransOrd κ] [Std.LawfulEqOrd κ] in
theorem contains_eq_false_iff {d : Dict κ α} {k : κ} : d.contains k = false ↔ d.get? k = none := by
  rw [contains_eq_isSome, Option.isSome_eq_false_iff, Option.isNone_iff_eq_none]

theorem get?_insert_of_free [DecidableEq κ] {d : Dict κ α} {k k' : κ} {v v' : α} (hfree : d.get? k' = none)
    (h : d.get? k = some v) : (d.insert k' v').get? k = some v := by
  rw [get?_insert, if_neg]
  · exact h
  · rintro rfl
    rw [hfree] at h
    cases h

theorem mem_keys {d : Dict κ α} {k : κ} : k ∈ d.keys ↔ ∃ x, d.get? k = some x := by
  simp only [keys, List.mem_map, get?_eq_some_iff]
  exact ⟨fun ⟨e, he, h⟩ => ⟨e.2, h ▸ he⟩, fun ⟨x, h⟩ => ⟨(k, x), h, rfl⟩⟩

omit [Std.LawfulEqOrd κ] in
theorem nodup_keys (d : Dict κ α) : d.keys.Nodup := by
  refine List.pairwise_map.2 (d.ascending.imp fun {a b} hab e => ?_)
  rw [e] at hab
  simp [Std.compare_self] at hab

/-- Among more distinct keys than there are entries, one is free. -/
theorem exists_free (d : Dict κ α) {f : Nat → κ} (hf : Function.Injective f) :
    ∃ i ∈ List.range (d.size + 1), d.contains (f i) = false := by
  by_contra hall
  push Not at hall
  have hsub : (List.range (d.size + 1)).map f ⊆ d.keys := by
    intro k hk
    obtain ⟨i, hi, rfl⟩ := List.mem_map.1 hk
    have htaken := hall i hi
    rw [ne_eq, Bool.not_eq_false] at htaken
    exact mem_keys.2 (contains_iff.1 htaken)
  have hle := (List.subperm_of_subset (List.nodup_range.map hf) hsub).length_le
  rw [List.length_map, List.length_range, keys, List.length_map] at hle
  exact Nat.not_succ_le_self _ hle

omit [Std.TransOrd κ] in
/-- A change that does nothing the second time, made at every key of a list. -/
theorem get?_foldl_modify [DecidableEq κ] {f : α → α} (hf : ∀ x, f (f x) = f x) (k : κ) :
    ∀ (l : List κ) (d : Dict κ α),
      (l.foldl (fun d i => d.modify i f) d).get? k = if k ∈ l then (d.get? k).map f else d.get? k
  | [], d => by simp
  | i :: l, d => by
    rw [List.foldl_cons, get?_foldl_modify hf k l, get?_modify]
    by_cases hi : i = k
    · subst hi
      have hff : f ∘ f = f := funext hf
      by_cases hl : i ∈ l <;> simp [hl, Option.map_map, hff]
    · have hi' : ¬ k = i := fun e => hi e.symm
      simp [hi, hi']

theorem get?_foldl_erase [DecidableEq κ] (k : κ) :
    ∀ (l : List κ) (d : Dict κ α), (l.foldl erase d).get? k = if k ∈ l then none else d.get? k
  | [], d => by simp
  | i :: l, d => by
    rw [List.foldl_cons, get?_foldl_erase k l, get?_erase]
    by_cases hi : i = k
    · simp [hi]
    · have hi' : ¬ k = i := fun e => hi e.symm
      simp [hi, hi']

/-! ### Entries, in whatever order -/

omit [Std.LawfulEqOrd κ] in
theorem nodup_entries (d : Dict κ α) : d.entries.Nodup := (nodup_keys d).of_map _

theorem mem_entries {d : Dict κ α} {e : κ × α} : e ∈ d.entries ↔ d.get? e.1 = some e.2 := get?_eq_some_iff.symm

theorem perm_of_get? [DecidableEq κ] {d : Dict κ α} {k : κ} {v : α} (h : d.get? k = some v) :
    d.entries.Perm ((k, v) :: (d.erase k).entries) := by
  have hnot : (k, v) ∉ (d.erase k).entries := by
    rw [mem_entries, get?_erase]
    simp
  refine (List.perm_ext_iff_of_nodup (nodup_entries d) (List.nodup_cons.2 ⟨hnot, nodup_entries _⟩)).2 fun e => ?_
  rw [List.mem_cons, mem_entries, mem_entries, get?_erase]
  by_cases hk : k = e.1
  · rw [if_pos hk, ← hk, h]
    constructor
    · intro hv
      exact .inl (Prod.ext hk.symm (Option.some.inj hv).symm)
    · rintro (rfl | hv)
      · rfl
      · cases hv
  · rw [if_neg hk]
    constructor
    · exact .inr
    · rintro (rfl | hv)
      · exact absurd rfl hk
      · exact hv

theorem erase_of_get?_eq_none [DecidableEq κ] {d : Dict κ α} {k : κ} (h : d.get? k = none) : d.erase k = d := by
  refine ext_get? fun k' => ?_
  rw [get?_erase]
  split
  · rename_i hk
    rw [← hk, h]
  · rfl

theorem erase_insert [DecidableEq κ] (d : Dict κ α) (k : κ) (v : α) : (d.insert k v).erase k = d.erase k := by
  refine ext_get? fun k' => ?_
  rw [get?_erase, get?_erase, get?_insert]
  split <;> rfl

/-! ### Entries given in ascending order -/

omit [Std.LawfulEqOrd κ] in
theorem insertEntry_of_greatest {k : κ} {v : α} {l : List (κ × α)} (h : ∀ e ∈ l, compare e.1 k = .lt) :
    insertEntry k v l = l ++ [(k, v)] := by
  induction l with
  | nil => rfl
  | cons e l ih =>
    have hgt : compare k e.1 = .gt := Std.OrientedCmp.gt_iff_lt.2 (h e (by simp))
    rw [insertEntry, hgt, List.cons_append, ← ih fun e he => h e (by simp [he])]

omit [Std.LawfulEqOrd κ] in
theorem entries_foldl_insert {l : List (κ × α)} {d : Dict κ α}
    (h : (d.entries ++ l).Pairwise fun a b => compare a.1 b.1 = .lt) :
    (l.foldl (fun d e => d.insert e.1 e.2) d).entries = d.entries ++ l := by
  induction l generalizing d with
  | nil => simp
  | cons e l ih =>
    have hbefore := (List.pairwise_append.1 h).2.2
    have hinsert : (d.insert e.1 e.2).entries = d.entries ++ [e] :=
      insertEntry_of_greatest fun a ha => hbefore a ha e (by simp)
    rw [List.foldl_cons, ih (by simpa [hinsert] using h), hinsert, List.append_assoc, List.singleton_append]

omit [Std.LawfulEqOrd κ] in
theorem entries_ofList {l : List (κ × α)} (h : l.Pairwise fun a b => compare a.1 b.1 = .lt) :
    (ofList l).entries = l := entries_foldl_insert h

/-- Of entries with distinct keys all are there once they have been inserted. -/
theorem get?_foldl_insert [DecidableEq κ] {k : κ} {v : α} : ∀ {l : List (κ × α)} {d : Dict κ α}, (l.map (·.1)).Nodup →
    (k, v) ∈ l ∨ k ∉ l.map (·.1) ∧ d.get? k = some v → (l.foldl (fun d e => d.insert e.1 e.2) d).get? k = some v
  | [], _, _, h => (h.resolve_left List.not_mem_nil).2
  | e :: l, d, hl, h => by
    rw [List.map_cons, List.nodup_cons] at hl
    refine get?_foldl_insert (l := l) hl.2 ?_
    rw [Dict.get?_insert]
    by_cases he : e.1 = k
    · refine .inr ⟨he ▸ hl.1, ?_⟩
      rw [if_pos he]
      rcases h with h | h
      · rcases List.mem_cons.1 h with rfl | h
        · rfl
        · exact absurd (List.mem_map.2 ⟨_, h, rfl⟩) (he ▸ hl.1)
      · exact absurd (by simp [he]) h.1
    · rw [if_neg he]
      refine h.imp (fun h => (List.mem_cons.1 h).resolve_left fun heq => he (congrArg Prod.fst heq).symm) fun h => ⟨?_, h.2⟩
      exact fun hk => h.1 (List.mem_cons_of_mem _ hk)

/-- A dictionary made of entries with distinct keys has them all. -/
theorem get?_ofList [DecidableEq κ] {l : List (κ × α)} (hl : (l.map (·.1)).Nodup) {k : κ} {v : α} (h : (k, v) ∈ l) :
    (ofList l).get? k = some v := get?_foldl_insert hl (.inl h)

omit [Std.TransOrd κ] [Std.LawfulEqOrd κ] in
theorem length_insertEntry_le (k : κ) (v : α) : ∀ l : List (κ × α), (insertEntry k v l).length ≤ l.length + 1
  | [] => Nat.le_refl 1
  | e :: l => by
    rw [insertEntry]
    split
    · exact Nat.le_refl _
    · exact Nat.le_succ _
    · exact Nat.succ_le_succ (length_insertEntry_le k v l)

omit [Std.LawfulEqOrd κ] in
/-- A dictionary has no entries but those that it was made of. -/
theorem entries_ofList_subset (l : List (κ × α)) :
    (∀ e ∈ (ofList l).entries, e ∈ l) ∧ (ofList l).entries.length ≤ l.length := by
  have hfold : ∀ (l : List (κ × α)) (d : Dict κ α),
      (∀ e ∈ (l.foldl (fun d e => d.insert e.1 e.2) d).entries, e ∈ d.entries ∨ e ∈ l) ∧
        (l.foldl (fun d e => d.insert e.1 e.2) d).entries.length ≤ d.entries.length + l.length := by
    intro l
    induction l with
    | nil => exact fun d => ⟨fun _ => .inl, Nat.le_refl _⟩
    | cons e l ih =>
      intro d
      obtain ⟨hmem, hlen⟩ := ih (d.insert e.1 e.2)
      refine ⟨fun a ha => ?_, Nat.le_trans hlen ?_⟩
      · rcases hmem a ha with ha | ha
        · rcases key_of_mem_insertEntry ha with rfl | ha
          · exact .inr (by simp)
          · exact .inl ha
        · exact .inr (List.mem_cons_of_mem _ ha)
      · have hone := length_insertEntry_le e.1 e.2 d.entries
        rw [List.length_cons, Nat.add_comm l.length, ← Nat.add_assoc]
        exact Nat.add_le_add_right hone _
  obtain ⟨hmem, hlen⟩ := hfold l .empty
  exact ⟨fun e he => (hmem e he).resolve_left List.not_mem_nil, (Nat.zero_add l.length) ▸ hlen⟩

omit [Std.TransOrd κ] [Std.LawfulEqOrd κ] in
theorem ext_entries {a b : Dict κ α} (h : a.entries = b.entries) : a = b := by
  cases a
  cases b
  cases h
  rfl

omit [Std.LawfulEqOrd κ] in
theorem ofList_entries (d : Dict κ α) : ofList d.entries = d := ext_entries (entries_ofList d.ascending)

end Dict

end TensorGraph
