import TensorGraph.Graph.Reach
import TensorGraph.Proofs.Graph.Linked

/-!
Graphs without cycles. An op feeds another that reads one of its results; in a graph without cycles the depth of an
op, the number of ops that it depends on, grows along every feed and stays below the number of ops.

Searches through the ops of a graph find everything they can come to. Every layer of a search adds an op, so the
number of layers is never the limit, and the ops that are found are closed under the steps of the search. The search
for what given tensors depend on finds the ops that a chain of feeds leads from to the producer of one of them.
-/
namespace TensorGraph

namespace Graph

variable {g g' : Graph} {o p q : OpId} {t : TensorId}

/-- The op `q` reads a result of the op `p`. -/
def Feeds (g : Graph) (p q : OpId) : Prop := ∃ op, g.op? q = some op ∧ ∃ t ∈ op.inputs, g.producer? t = some p

/-- No op depends on itself. -/
def Acyclic (g : Graph) : Prop := ∀ o, ¬ Relation.TransGen g.Feeds o o

/-- A graph whose feeds are chains of feeds of a graph without cycles has none either. -/
theorem Acyclic.of_feeds (h : g.Acyclic) (hf : ∀ {p q}, g'.Feeds p q → Relation.TransGen g.Feeds p q) :
    g'.Acyclic := by
  intro o ho
  refine h o ?_
  have hlift : ∀ {p q}, Relation.TransGen g'.Feeds p q → Relation.TransGen g.Feeds p q := by
    intro p q hpq
    induction hpq with
    | single h1 => exact hf h1
    | tail _ h2 ih => exact ih.trans (hf h2)
  exact hlift ho

theorem Linked.op_of_feeds (h : g.Linked) (hf : g.Feeds p q) : ∃ op, g.op? p = some op := by
  obtain ⟨-, -, t, -, hp⟩ := hf
  obtain ⟨op, ho, -⟩ := h.op_of_producer hp
  exact ⟨op, ho⟩

open Classical in
/-- The number of ops that an op depends on. -/
noncomputable def depth (g : Graph) (o : OpId) : Nat :=
  (g.ops.keys.filter fun p => Relation.TransGen g.Feeds p o).length

/-- The depth grows along feeds. -/
theorem Acyclic.depth_lt (h : g.Acyclic) (hl : g.Linked) (hf : g.Feeds p q) : g.depth p < g.depth q := by
  classical
  obtain ⟨op, hp⟩ := hl.op_of_feeds hf
  have hnodup : (p :: g.ops.keys.filter fun r => Relation.TransGen g.Feeds r p).Nodup := by
    refine List.nodup_cons.2 ⟨?_, g.ops.nodup_keys.filter _⟩
    intro hmem
    exact h p (by simpa using (List.mem_filter.1 hmem).2)
  have hsub : (p :: g.ops.keys.filter fun r => Relation.TransGen g.Feeds r p) ⊆
      g.ops.keys.filter fun r => Relation.TransGen g.Feeds r q := by
    intro r hr
    rcases List.mem_cons.1 hr with rfl | hr
    · exact List.mem_filter.2 ⟨Dict.mem_keys.2 ⟨op, hp⟩, by simpa using Relation.TransGen.single hf⟩
    · obtain ⟨hk, hr⟩ := List.mem_filter.1 hr
      have hrp : Relation.TransGen g.Feeds r p := by simpa using hr
      exact List.mem_filter.2 ⟨hk, by simpa using hrp.tail hf⟩
  exact (List.subperm_of_subset hnodup hsub).length_le

theorem Acyclic.depth_lt_size (h : g.Acyclic) {op : Op} (ho : g.op? o = some op) : g.depth o < g.ops.size := by
  classical
  have hnodup : (o :: g.ops.keys.filter fun r => Relation.TransGen g.Feeds r o).Nodup := by
    refine List.nodup_cons.2 ⟨?_, g.ops.nodup_keys.filter _⟩
    intro hmem
    exact h o (by simpa using (List.mem_filter.1 hmem).2)
  have hsub : (o :: g.ops.keys.filter fun r => Relation.TransGen g.Feeds r o) ⊆ g.ops.keys := by
    intro r hr
    rcases List.mem_cons.1 hr with rfl | hr
    · exact Dict.mem_keys.2 ⟨op, ho⟩
    · exact (List.mem_filter.1 hr).1
  have hle := (List.subperm_of_subset hnodup hsub).length_le
  have hsize : g.ops.keys.length = g.ops.size := by simp [Dict.keys, Dict.size]
  exact hsize ▸ hle

/-! ## Searches -/

variable {next : OpId → List OpId} {op : Op}

/-- What holds of all ops that a search starts with or comes to holds of all that it finds. -/
theorem reachFrom_all {P : OpId → Prop} (hnext : ∀ p, P p → ∀ o ∈ next p, P o) :
    ∀ {depth : Nat} {frontier : List OpId} {seen : SortedSet OpId}, (∀ o ∈ frontier, P o) → (∀ o ∈ seen, P o) →
      ∀ o ∈ reachFrom next depth frontier seen, P o
  | 0, _, _, _, hseen => hseen
  | depth + 1, frontier, seen, hfrontier, hseen => by
    unfold reachFrom
    simp only
    split
    · exact hseen
    · refine reachFrom_all hnext (fun o ho => ?_) fun o ho => ?_
      · obtain ⟨p, hp, ho⟩ := List.mem_flatMap.1 ho
        exact hnext p (hfrontier p (List.mem_of_mem_filter (SortedSet.mem_ofList.1 hp))) o ho
      · rcases SortedSet.mem_insertMany.1 ho with ho | ho
        · exact hfrontier o (List.mem_of_mem_filter ho)
        · exact hseen o ho

/-- The ops of a list that a search has not seen. -/
def unseen (all : List OpId) (seen : SortedSet OpId) : List OpId := all.filter fun o => !seen.contains o

theorem unseen_lt {all fresh : List OpId} {seen : SortedSet OpId} (ho : o ∈ fresh) (hall : o ∈ all) (hnew : o ∉ seen) :
    (unseen all (seen.insertMany fresh)).length < (unseen all seen).length := by
  have hfilter : unseen all (seen.insertMany fresh) = (unseen all seen).filter fun p => !fresh.contains p := by
    rw [unseen, unseen, List.filter_filter]
    refine List.filter_congr fun p _ => ?_
    rw [Bool.eq_iff_iff]
    simp only [Bool.not_eq_true', Bool.and_eq_true, SortedSet.contains_eq_false_iff, SortedSet.mem_insertMany, not_or,
      List.contains_eq_mem, decide_eq_false_iff_not]
  rw [hfilter]
  refine List.length_filter_lt_length_iff_exists.2 ⟨o, List.mem_filter.2 ⟨hall, ?_⟩, by simpa using ho⟩
  rw [SortedSet.contains_eq_false_iff.2 hnew]
  rfl

/-- A search that has layers enough finds what it starts with, and all that one step leads to from what it finds. What
has been seen leads to what has been seen and to the frontier; with every layer there is less that has not been. -/
theorem reachFrom_closed {all : List OpId} (hnext : ∀ p, ∀ o ∈ next p, o ∈ all) :
    ∀ {depth : Nat} {frontier : List OpId} {seen : SortedSet OpId}, (∀ o ∈ frontier, o ∈ all) →
      (∀ p ∈ seen, ∀ o ∈ next p, o ∈ seen ∨ o ∈ frontier) → (unseen all seen).length < depth →
      (∀ o, o ∈ frontier ∨ o ∈ seen → o ∈ reachFrom next depth frontier seen) ∧
        ∀ p ∈ reachFrom next depth frontier seen, ∀ o ∈ next p, o ∈ reachFrom next depth frontier seen
  | 0, _, _, _, _, hdepth => absurd hdepth (Nat.not_lt_zero _)
  | depth + 1, frontier, seen, hall, hseen, hdepth => by
    unfold reachFrom
    simp only
    generalize hfresh : frontier.filter (fun id => !seen.contains id) = fresh
    have hmem : ∀ {o}, o ∈ fresh ↔ o ∈ frontier ∧ o ∉ seen := by
      intro o
      rw [← hfresh, List.mem_filter, Bool.not_eq_true', SortedSet.contains_eq_false_iff]
    split
    · rename_i hempty
      rw [List.isEmpty_iff] at hempty
      have hold : ∀ o ∈ frontier, o ∈ seen := by
        intro o ho
        by_contra hnot
        exact absurd (hempty ▸ hmem.2 ⟨ho, hnot⟩) List.not_mem_nil
      exact ⟨fun o ho => ho.elim (hold o) id, fun p hp o ho => (hseen p hp o ho).elim id (hold o)⟩
    · rename_i hne
      rw [Bool.not_eq_true, List.isEmpty_eq_false_iff_exists_mem] at hne
      obtain ⟨q, hq⟩ := hne
      have hlt := unseen_lt hq (hall q (hmem.1 hq).1) (hmem.1 hq).2
      have hall' : ∀ o ∈ (SortedSet.ofList fresh).toList.flatMap next, o ∈ all := by
        intro o ho
        obtain ⟨p, -, ho⟩ := List.mem_flatMap.1 ho
        exact hnext p o ho
      have hseen' : ∀ p ∈ seen.insertMany fresh, ∀ o ∈ next p,
          o ∈ seen.insertMany fresh ∨ o ∈ (SortedSet.ofList fresh).toList.flatMap next := by
        intro p hp o ho
        rcases SortedSet.mem_insertMany.1 hp with hp | hp
        · exact .inr (List.mem_flatMap.2 ⟨p, SortedSet.mem_ofList.2 hp, ho⟩)
        · refine .inl (SortedSet.mem_insertMany.2 ?_)
          by_cases hs : o ∈ seen
          · exact .inr hs
          · exact .inl (hmem.2 ⟨(hseen p hp o ho).resolve_left hs, hs⟩)
      obtain ⟨hfound, hclosed⟩ := reachFrom_closed hnext hall' hseen' (by omega : _ < depth)
      refine ⟨fun o ho => hfound o (.inr (SortedSet.mem_insertMany.2 ?_)), hclosed⟩
      by_cases hs : o ∈ seen
      · exact .inr hs
      · exact .inl (hmem.2 ⟨ho.resolve_right hs, hs⟩)

/-- A search through the ops of a graph. -/
theorem reach_closed {start : List OpId} (hstart : ∀ o ∈ start, ∃ op, g.op? o = some op)
    (hnext : ∀ p, ∀ o ∈ next p, ∃ op, g.op? o = some op) : (∀ o ∈ start, o ∈ g.reach next start) ∧
      ∀ p ∈ g.reach next start, ∀ o ∈ next p, o ∈ g.reach next start := by
  have hlen : (unseen g.ops.keys .empty).length < g.ops.size + 1 := by
    refine Nat.lt_succ_of_le ((List.length_filter_le _ _).trans ?_)
    simp [Dict.keys, Dict.size]
  have hkeys : ∀ p, ∀ o ∈ next p, o ∈ g.ops.keys := fun p o ho => Dict.mem_keys.2 (hnext p o ho)
  obtain ⟨hfound, hclosed⟩ := reachFrom_closed hkeys (fun o ho => Dict.mem_keys.2 (hstart o ho))
    (fun p hp => absurd hp (SortedSet.not_mem_empty p)) hlen
  exact ⟨fun o ho => hfound o (.inl ho), hclosed⟩

/-! ## What tensors depend on -/

theorem Linked.op_of_mem_producers (hl : g.Linked) {ids : List TensorId} (ho : o ∈ ids.filterMap g.producer?) :
    ∃ op, g.op? o = some op := by
  obtain ⟨t, -, ho⟩ := List.mem_filterMap.1 ho
  obtain ⟨op, hop, -⟩ := hl.op_of_producer ho
  exact ⟨op, hop⟩

/-- The producers of the given tensors are among the ops that these depend on. -/
theorem producer_mem_opsTo (hl : g.Linked) {ids : List TensorId} (ht : t ∈ ids) (hp : g.producer? t = some o) :
    o ∈ g.opsTo ids := by
  have hop : ∀ {ids : List TensorId}, ∀ o ∈ ids.filterMap g.producer?, ∃ op, g.op? o = some op :=
    fun o => hl.op_of_mem_producers
  exact (reach_closed hop fun _ => hop).1 o (List.mem_filterMap.2 ⟨t, ht, hp⟩)

/-- What an op reads that given tensors depend on, they depend on too. -/
theorem opsTo_closed (hl : g.Linked) {ids : List TensorId} (hp : p ∈ g.opsTo ids) (hop : g.op? p = some op)
    (ht : t ∈ op.inputs) (ho : g.producer? t = some o) : o ∈ g.opsTo ids := by
  have hop' : ∀ {ids : List TensorId}, ∀ o ∈ ids.filterMap g.producer?, ∃ op, g.op? o = some op :=
    fun o => hl.op_of_mem_producers
  refine (reach_closed hop' fun _ => hop').2 p hp o ?_
  rw [hop, Option.map_some, Option.getD_some]
  exact List.mem_filterMap.2 ⟨t, ht, ho⟩

/-- The ops that given tensors depend on are those from which feeds lead to the producer of one of them. -/
theorem mem_opsTo (hl : g.Linked) {ids : List TensorId} :
    o ∈ g.opsTo ids ↔ ∃ t ∈ ids, ∃ p, g.producer? t = some p ∧ Relation.ReflTransGen g.Feeds o p := by
  constructor
  · intro ho
    refine reachFrom_all (P := fun o => ∃ t ∈ ids, ∃ p, g.producer? t = some p ∧ Relation.ReflTransGen g.Feeds o p)
      (fun q hq o ho => ?_) (fun o ho => ?_) (fun o ho => absurd ho (SortedSet.not_mem_empty o)) o ho
    · obtain ⟨t, ht, p, hp, hqp⟩ := hq
      obtain ⟨u, hu, hou⟩ := List.mem_filterMap.1 ho
      cases hop : g.op? q with
      | none =>
        rw [hop] at hu
        cases hu
      | some op =>
        rw [hop] at hu
        exact ⟨t, ht, p, hp, .head ⟨op, hop, u, hu, hou⟩ hqp⟩
    · obtain ⟨t, ht, hp⟩ := List.mem_filterMap.1 ho
      exact ⟨t, ht, o, hp, .refl⟩
  · rintro ⟨t, ht, p, hp, hop⟩
    induction hop using Relation.ReflTransGen.head_induction_on with
    | refl => exact producer_mem_opsTo hl ht hp
    | head hf _ ih =>
      obtain ⟨op, hop, u, hu, hou⟩ := hf
      exact opsTo_closed hl ih hop hu hou

end Graph

end TensorGraph
