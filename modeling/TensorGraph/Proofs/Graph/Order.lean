import TensorGraph.Graph.Order
import TensorGraph.Proofs.Graph.Reach

/-!
The order in which ops run is a schedule: every op stands in it once, after all ops that feed it. The invariant of the
search is that an op waits for those of its dependencies that have not run, and is ready if it waits for none and has
not run itself. Of the ops that are ready, the one with the least number runs. An op that reads its own result never
gets through: it would have to wait for one less than none.
-/
namespace TensorGraph

namespace Graph

variable {g g' : Graph} {o p q : OpId} {t : TensorId}

/-! ## Schedules -/

/-- Each op of the list has not run before its turn, and all that feeds it has; `done` have run before the list. -/
def Schedule (g : Graph) : List OpId → List OpId → Prop
  | _, [] => True
  | done, o :: l => o ∉ done ∧ (∃ op, g.op? o = some op) ∧ (∀ p, g.Feeds p o → p ∈ done) ∧ Schedule g (o :: done) l

/-- A schedule of all ops. -/
structure Complete (g : Graph) (l : List OpId) : Prop where
  schedule : Schedule g [] l
  all : ∀ {o op}, g.op? o = some op → o ∈ l

namespace Schedule

theorem not_mem_done : ∀ {l done : List OpId}, Schedule g done l → ∀ o ∈ l, o ∉ done
  | a :: l, done, h, o, ho => by
    rcases List.mem_cons.1 ho with rfl | ho
    · exact h.1
    · exact fun hd => not_mem_done h.2.2.2 o ho (List.mem_cons_of_mem _ hd)

theorem nodup : ∀ {l done : List OpId}, Schedule g done l → l.Nodup
  | [], _, _ => .nil
  | o :: l, done, h => by
    refine List.nodup_cons.2 ⟨fun ho => ?_, nodup h.2.2.2⟩
    exact not_mem_done h.2.2.2 o ho (by simp)

theorem op : ∀ {l done : List OpId}, Schedule g done l → ∀ o ∈ l, ∃ op, g.op? o = some op
  | a :: l, done, h, o, ho => by
    rcases List.mem_cons.1 ho with rfl | ho
    · exact h.2.1
    · exact op h.2.2.2 o ho

theorem feeds_before : ∀ {l done : List OpId}, Schedule g done l → o ∈ l → g.Feeds p o →
    p ∈ done ∨ p ∈ l ∧ l.idxOf p < l.idxOf o
  | a :: l, done, h, ho, hf => by
    by_cases hoa : o = a
    · subst hoa
      exact .inl (h.2.2.1 p hf)
    · have hol : o ∈ l := (List.mem_cons.1 ho).resolve_left hoa
      rcases feeds_before h.2.2.2 hol hf with hd | ⟨hpl, hlt⟩
      · rcases List.mem_cons.1 hd with rfl | hd
        · refine .inr ⟨by simp, ?_⟩
          rw [List.idxOf_cons_self, List.idxOf_cons_ne _ fun e => hoa e.symm]
          exact Nat.succ_pos _
        · exact .inl hd
      · have hpa : p ≠ a := by
          rintro rfl
          exact not_mem_done h.2.2.2 p hpl (by simp)
        refine .inr ⟨List.mem_cons_of_mem _ hpl, ?_⟩
        rw [List.idxOf_cons_ne _ fun e => hpa e.symm, List.idxOf_cons_ne _ fun e => hoa e.symm]
        exact Nat.succ_lt_succ hlt

/-- In a schedule nothing is fed from behind. -/
theorem pairwise : ∀ {l done : List OpId}, Schedule g done l → l.Pairwise fun p q => ¬ g.Feeds q p
  | [], _, _ => .nil
  | o :: l, done, h => by
    refine List.pairwise_cons.2 ⟨fun q hq hf => ?_, pairwise h.2.2.2⟩
    exact not_mem_done h.2.2.2 q hq (List.mem_cons_of_mem _ (h.2.2.1 q hf))

end Schedule

/-- Along a feed, positions in a schedule grow. -/
theorem Complete.idxOf_lt {l : List OpId} (h : Complete g l) (hf : g.Feeds p q) : l.idxOf p < l.idxOf q := by
  obtain ⟨op, hq, -⟩ := id hf
  rcases h.schedule.feeds_before (h.all hq) hf with hd | ⟨-, hlt⟩
  · cases hd
  · exact hlt

/-- A graph that has a schedule has no cycle. -/
theorem Complete.acyclic {l : List OpId} (h : Complete g l) : g.Acyclic := by
  have hlt : ∀ {p q}, Relation.TransGen g.Feeds p q → l.idxOf p < l.idxOf q := by
    intro p q hpq
    induction hpq with
    | single hf => exact h.idxOf_lt hf
    | tail _ hf ih => exact ih.trans (h.idxOf_lt hf)
  exact fun o ho => Nat.lt_irrefl _ (hlt ho)

/-! ## What ops wait for -/

/-- What the search relies on: ops stand under their own numbers, the producer of a tensor is the op that names it as
its result, and the consumers of a tensor that an op produces are the ops that read it. -/
structure Accounted (g : Graph) : Prop where
  opId : ∀ {o op}, g.op? o = some op → op.id = o
  makes : ∀ {o t}, g.producer? t = some o ↔ ∃ op, g.op? o = some op ∧ t ∈ op.outputs
  reads : ∀ {p o t}, g.producer? t = some p → (o ∈ g.consumers t ↔ ∃ op, g.op? o = some op ∧ t ∈ op.inputs)

theorem Linked.accounted (h : g.Linked) : g.Accounted := ⟨h.opId, h.makes, fun _ => h.reads⟩

theorem Accounted.op_of_feeds (h : g.Accounted) (hf : g.Feeds p q) : ∃ op, g.op? p = some op := by
  obtain ⟨-, -, t, -, hp⟩ := hf
  obtain ⟨op, ho, -⟩ := h.makes.1 hp
  exact ⟨op, ho⟩

theorem mem_dependencies {op : Op} : p ∈ g.dependencies op ↔ p ≠ op.id ∧ ∃ t ∈ op.inputs, g.producer? t = some p := by
  simp only [dependencies, SortedSet.mem_ofList, List.mem_filter, List.mem_filterMap, decide_eq_true_eq]
  exact And.comm

theorem Accounted.mem_successors (hl : g.Accounted) {op : Op} (ho : g.op? o = some op) :
    q ∈ g.successors op ↔ g.Feeds o q := by
  simp only [successors, SortedSet.mem_ofList, List.mem_flatMap]
  constructor
  · rintro ⟨t, ht, hq⟩
    have hp := hl.makes.2 ⟨op, ho, ht⟩
    obtain ⟨op', ho', hin⟩ := (hl.reads hp).1 hq
    exact ⟨op', ho', t, hin, hp⟩
  · rintro ⟨op', ho', t, hin, hp⟩
    obtain ⟨op'', ho'', hout⟩ := hl.makes.1 hp
    cases ho.symm.trans ho''
    exact ⟨t, hout, (hl.reads hp).2 ⟨op', ho', hin⟩⟩

theorem Accounted.mem_dependencies (hl : g.Accounted) {op : Op} (ho : g.op? o = some op) :
    p ∈ g.dependencies op ↔ p ≠ o ∧ g.Feeds p o := by
  rw [Graph.mem_dependencies, hl.opId ho]
  refine and_congr_right fun _ => ⟨fun ⟨t, ht, hp⟩ => ⟨op, ho, t, ht, hp⟩, ?_⟩
  rintro ⟨op', ho', t, ht, hp⟩
  cases ho.symm.trans ho'
  exact ⟨t, ht, hp⟩

/-- The number of dependencies of an op that have not run. -/
def missing (g : Graph) (done : List OpId) (op : Op) : Nat :=
  ((g.dependencies op).toList.filter fun p => p ∉ done).length

theorem missing_eq_zero {done : List OpId} {op : Op} :
    g.missing done op = 0 ↔ ∀ p ∈ g.dependencies op, p ∈ done := by
  simp [missing, List.filter_eq_nil_iff, SortedSet.mem_toList]

theorem length_filter_not_mem {done : List OpId} (hp : p ∉ done) : ∀ {l : List OpId}, l.Nodup →
    (l.filter fun q => q ∉ done).length =
      (l.filter fun q => q ∉ p :: done).length + if p ∈ l then 1 else 0
  | [], _ => rfl
  | a :: l, h => by
    rw [List.nodup_cons] at h
    have ih := length_filter_not_mem hp h.2
    by_cases hap : a = p
    · subst hap
      simp only [h.1, if_false, Nat.add_zero] at ih
      simpa [hp] using ih
    · have hpa : ¬ p = a := fun e => hap e.symm
      by_cases had : a ∈ done
      · simpa [had, hap, hpa] using ih
      · simp only [List.filter_cons, had, hap, hpa, List.mem_cons, not_false_eq_true, decide_true, if_true,
          List.length_cons, false_or] at ih ⊢
        omega

/-- One more op has run. -/
theorem missing_cons {done : List OpId} (op : Op) (hp : p ∉ done) :
    g.missing done op = g.missing (p :: done) op + if p ∈ (g.dependencies op).toList then 1 else 0 :=
  length_filter_not_mem hp (g.dependencies op).nodup_toList

/-- Once an op runs, each op that it feeds waits for one less. -/
theorem Accounted.missing_run (hl : g.Accounted) {done : List OpId} {op op' : Op} (ho : g.op? o = some op) (hnot : o ∉ done)
    (hself : ¬ g.Feeds o o) (hq : g.op? q = some op') :
    g.missing done op' = g.missing (o :: done) op' + if q ∈ (g.successors op).toList then 1 else 0 := by
  rw [missing_cons op' hnot]
  congr 1
  refine if_congr ?_ rfl rfl
  rw [SortedSet.mem_toList, SortedSet.mem_toList, hl.mem_dependencies hq, hl.mem_successors ho]
  refine and_iff_right_of_imp ?_
  rintro hf rfl
  exact hself hf

/-! ## The search -/

namespace Pending

variable {s s' : Pending}

/-- Ops wait for what has not run, and are ready if they have not run and wait for nothing. What has run waits for
nothing either. -/
structure Holds (g : Graph) (done : List OpId) (s : Pending) : Prop where
  waiting : ∀ o, s.waiting.get? o = (g.op? o).map (g.missing done)
  settled : ∀ o ∈ done, s.waiting.get? o = some 0
  ready : ∀ o, o ∈ s.ready ↔ o ∉ done ∧ s.waiting.get? o = some 0

theorem holds_start (g : Graph) : Holds g [] (.start g) := by
  have hwaiting : ∀ o, (start g).waiting.get? o = (g.op? o).map (g.missing []) := by
    intro o
    unfold start
    simp only [Dict.get?_map]
    cases ho : g.op? o with
    | none => simp [op?] at ho; simp [ho]
    | some op =>
      have : g.ops.get? o = some op := ho
      simp [this, missing, SortedSet.size]
  refine ⟨hwaiting, fun o h => absurd h List.not_mem_nil, fun o => ?_⟩
  have hmem : o ∈ (start g).ready ↔ (o, 0) ∈ (start g).waiting.entries := by
    simp only [start, SortedSet.mem_ofList, List.mem_map, List.mem_filter, decide_eq_true_eq, Prod.exists,
      exists_and_right, exists_eq_right]
  rw [hmem, ← Dict.get?_eq_some_iff]
  simp

/-- Settling a list of ops, all of which wait for something. -/
theorem settle_all : ∀ {l : List OpId} {s s' : Pending}, l.Nodup → (∀ o ∈ l, ∃ n, s.waiting.get? o = some n) →
    l.foldlM settle s = .ok s' →
    (∀ o ∈ l, s.waiting.get? o ≠ some 0) ∧
    (∀ o, s'.waiting.get? o = if o ∈ l then (s.waiting.get? o).map (· - 1) else s.waiting.get? o) ∧
    ∀ o, o ∈ s'.ready ↔ o ∈ s.ready ∨ o ∈ l ∧ s.waiting.get? o = some 1
  | [], s, s', _, _, h => by
    cases h
    simp
  | a :: l, s, s', hnodup, hsome, h => by
    rw [List.nodup_cons] at hnodup
    rw [List.foldlM_cons] at h
    obtain ⟨s₁, h1, h⟩ := Outcome.bind_eq_ok.1 h
    obtain ⟨n, hn⟩ := hsome a (by simp)
    unfold settle at h1
    rw [hn] at h1
    match n, hn, h1 with
    | 0, _, h1 => cases h1
    | n + 1, hn, h1 =>
      cases h1
      have hget : ∀ o, (s.waiting.insert a n).get? o = if a = o then some n else s.waiting.get? o :=
        fun o => Dict.get?_insert ..
      obtain ⟨hpos, hwait, hready⟩ := settle_all hnodup.2 (fun o ho => by
        have hne : ¬ a = o := fun e => hnodup.1 (e ▸ ho)
        simp only [hget, hne, if_false]
        exact hsome o (List.mem_cons_of_mem _ ho)) h
      refine ⟨fun o ho => ?_, fun o => ?_, fun o => ?_⟩
      · rcases List.mem_cons.1 ho with rfl | ho
        · simp [hn]
        · have hne : ¬ a = o := fun e => hnodup.1 (e ▸ ho)
          have := hpos o ho
          simpa only [hget, hne, if_false] using this
      · rw [hwait]
        simp only [hget]
        by_cases hao : a = o
        · subst hao
          simp [hnodup.1, hn]
        · have hoa : ¬ o = a := fun e => hao e.symm
          simp [hao, hoa]
      · rw [hready]
        simp only [hget]
        by_cases hao : a = o
        · subst hao
          by_cases hn0 : n = 0 <;> simp [hnodup.1, hn, hn0, SortedSet.mem_insert]
        · have hoa : ¬ o = a := fun e => hao e.symm
          by_cases hn0 : n = 0 <;> simp [hao, hoa, hn0, SortedSet.mem_insert]

/-- The step of the invariant: a ready op runs. It does not feed itself, and all that feeds it has run. -/
theorem Holds.run (hl : g.Accounted) {done : List OpId} (h : Holds g done s) {op : Op} (ho : g.op? o = some op)
    (hready : o ∈ s.ready)
    (hs : (g.successors op).toList.foldlM settle { s with ready := s.ready.erase o } = .ok s') :
    o ∉ done ∧ (∀ p, g.Feeds p o → p ∈ done) ∧ Holds g (o :: done) s' := by
  obtain ⟨hnot, hzero⟩ := (h.ready o).1 hready
  have hsome : ∀ q ∈ (g.successors op).toList, ∃ n, s.waiting.get? q = some n := by
    intro q hq
    obtain ⟨op', hq', -⟩ := (hl.mem_successors ho).1 hq
    exact ⟨g.missing done op', by rw [h.waiting, hq']; rfl⟩
  obtain ⟨hpos, hwait, hready'⟩ := settle_all (s := { s with ready := s.ready.erase o })
    (g.successors op).nodup_toList hsome hs
  simp only at hpos hwait hready'
  have hself : ¬ g.Feeds o o := fun hf => hpos o ((hl.mem_successors ho).2 hf) hzero
  have hfeeds : ∀ p, g.Feeds p o → p ∈ done := by
    intro p hf
    have hmissing := hzero
    rw [h.waiting, ho, Option.map_some, Option.some.injEq] at hmissing
    refine missing_eq_zero.1 hmissing p ((hl.mem_dependencies ho).2 ⟨?_, hf⟩)
    rintro rfl
    exact hself hf
  have hwaiting : ∀ q, s'.waiting.get? q = (g.op? q).map (g.missing (o :: done)) := by
    intro q
    rw [hwait, h.waiting]
    cases hq : g.op? q with
    | none => simp
    | some op' =>
      rw [Option.map_some, hl.missing_run ho hnot hself hq]
      split <;> rfl
  refine ⟨hnot, hfeeds, hwaiting, fun q hq => ?_, fun q => ?_⟩
  · have hsucc : q ∉ (g.successors op).toList := by
      intro hsucc
      rcases List.mem_cons.1 hq with rfl | hq
      · exact hpos q hsucc hzero
      · exact hpos q hsucc (h.settled q hq)
    rw [hwait, if_neg hsucc]
    rcases List.mem_cons.1 hq with rfl | hq
    · exact hzero
    · exact h.settled q hq
  · rw [hready', hwait, List.mem_cons, SortedSet.mem_erase, h.ready]
    by_cases hsucc : q ∈ (g.successors op).toList
    · have hne := hpos q hsucc
      have hqo : ¬ q = o := fun e => hne (e ▸ hzero)
      have hqd : q ∉ done := fun hd => hne (h.settled q hd)
      obtain ⟨n, hn⟩ := hsome q hsucc
      simp only [hn, ne_eq, Option.some.injEq] at hne
      simp only [hsucc, hqo, hqd, hn, if_true, Option.map_some, Option.some.injEq]
      constructor
      · rintro (⟨⟨-, h0⟩, -⟩ | ⟨-, h1⟩)
        · exact absurd h0 hne
        · exact ⟨by simp, by omega⟩
      · rintro ⟨-, h1⟩
        exact .inr ⟨trivial, by omega⟩
    · simp only [hsucc, if_false, false_and, or_false, not_or]
      tauto

end Pending

/-- The run of the invariant: what is taken from a search that holds the invariant is a schedule. -/
theorem orderFrom_schedule (hl : g.Accounted) : ∀ {fuel : Nat} {s : Pending} {done l : List OpId},
    Pending.Holds g done s → g.orderFrom fuel s = .ok l → Schedule g done l
  | 0, s, done, l, _, h => by
    cases h
    trivial
  | fuel + 1, s, done, l, hs, h => by
    unfold orderFrom at h
    split at h
    · cases h
      trivial
    · rename_i id rest hready
      have hmem : id ∈ s.ready := by
        rw [← SortedSet.mem_toList, hready]
        simp
      obtain ⟨op, ho⟩ : ∃ op, g.op? id = some op := by
        have hzero := ((hs.ready id).1 hmem).2
        rw [hs.waiting] at hzero
        obtain ⟨op, ho, -⟩ := Option.map_eq_some_iff.1 hzero
        exact ⟨op, ho⟩
      simp only [ho, Option.map_some, Option.getD_some] at h
      obtain ⟨s', hsettle, h⟩ := Outcome.bind_eq_ok.1 h
      obtain ⟨l', hl', h⟩ := Outcome.bind_eq_ok.1 h
      cases h
      obtain ⟨hnot, hfeeds, hs'⟩ := hs.run hl ho hmem hsettle
      exact ⟨hnot, ⟨op, ho⟩, hfeeds, orderFrom_schedule hl hs' hl'⟩

/-- As many different ops as there are, are all ops. -/
theorem mem_of_length {l : List OpId} (hnodup : l.Nodup) (hop : ∀ o ∈ l, ∃ op, g.op? o = some op)
    (hlen : l.length = g.ops.size) {op : Op} (ho : g.op? o = some op) : o ∈ l := by
  have hsub : l ⊆ g.ops.keys := fun p hp => Dict.mem_keys.2 (hop p hp)
  have hkeys : g.ops.keys.length ≤ l.length := by
    rw [hlen]
    simp [Dict.keys, Dict.size]
  exact ((List.subperm_of_subset hnodup hsub).perm_of_length_le hkeys).mem_iff.2 (Dict.mem_keys.2 ⟨op, ho⟩)

/-- The order of a graph is a schedule of all its ops. -/
theorem Accounted.order_complete (hl : g.Accounted) {l : List OpId} (h : g.order = .ok l) : Complete g l := by
  unfold order at h
  obtain ⟨ids, hids, h⟩ := Outcome.bind_eq_ok.1 h
  split at h
  · cases h
  · rename_i hlen
    cases h
    have hsched := orderFrom_schedule hl (Pending.holds_start g) hids
    exact ⟨hsched, fun ho => mem_of_length hsched.nodup hsched.op (not_not.1 hlen) ho⟩

theorem order_complete (hl : g.Linked) {l : List OpId} (h : g.order = .ok l) : Complete g l := hl.accounted.order_complete h

/-! ## How the search goes on -/

namespace Pending

/-- Settling ops goes through, or one of them waits for nothing. -/
theorem settle_all_ends : ∀ (l : List OpId) (s : Pending), l.foldlM settle s = .error .abort ∨ ∃ s', l.foldlM settle s = .ok s'
  | [], s => .inr ⟨s, rfl⟩
  | o :: l, s => by
    rw [List.foldlM_cons]
    cases hs : settle s o with
    | ok s₁ => exact settle_all_ends l s₁
    | error f =>
      unfold settle at hs
      split at hs <;> cases hs
      exact .inl rfl


theorem settle_all_ok : ∀ {l : List OpId} {s : Pending}, l.Nodup →
    (∀ o ∈ l, ∃ n, s.waiting.get? o = some (n + 1)) → ∃ s', l.foldlM settle s = .ok s'
  | [], s, _, _ => ⟨s, rfl⟩
  | a :: l, s, hnodup, hpos => by
    rw [List.nodup_cons] at hnodup
    obtain ⟨n, hn⟩ := hpos a (by simp)
    have hfirst : ∃ s₁, settle s a = .ok s₁ ∧ s₁.waiting = s.waiting.insert a n := by
      unfold settle
      rw [hn]
      exact ⟨_, rfl, rfl⟩
    obtain ⟨s₁, h1, hwait⟩ := hfirst
    have hrest : ∀ o ∈ l, ∃ n, s₁.waiting.get? o = some (n + 1) := by
      intro o ho
      have hne : ¬ a = o := fun e => hnodup.1 (e ▸ ho)
      rw [hwait, Dict.get?_insert, if_neg hne]
      exact hpos o (List.mem_cons_of_mem _ ho)
    obtain ⟨s', hs'⟩ := settle_all_ok hnodup.2 hrest
    exact ⟨s', by rw [List.foldlM_cons, h1]; exact hs'⟩

/-- Whoever reads a result of another op that has not run waits for it. -/
theorem Holds.settles (hl : g.Accounted) {done : List OpId} {s : Pending} (h : Holds g done s) {op : Op}
    (ho : g.op? o = some op) (hnot : o ∉ done) (hself : ¬ g.Feeds o o) :
    ∃ s', (g.successors op).toList.foldlM settle { s with ready := s.ready.erase o } = .ok s' := by
  refine settle_all_ok (g.successors op).nodup_toList fun q hq => ?_
  have hfeeds := (hl.mem_successors ho).1 hq
  obtain ⟨op', hq', -⟩ := id hfeeds
  have hdep : o ∈ g.dependencies op' := by
    refine (hl.mem_dependencies hq').2 ⟨?_, hfeeds⟩
    rintro rfl
    exact hself hfeeds
  have hpos : g.missing done op' ≠ 0 := fun h0 => hnot (missing_eq_zero.1 h0 o hdep)
  obtain ⟨n, hn⟩ := Nat.exists_eq_succ_of_ne_zero hpos
  exact ⟨n, by simp only [h.waiting, hq', Option.map_some, hn]⟩

theorem Holds.op_of_ready {done : List OpId} {s : Pending} (h : Holds g done s) (ho : o ∈ s.ready) :
    ∃ op, g.op? o = some op := by
  have hzero := ((h.ready o).1 ho).2
  rw [h.waiting] at hzero
  obtain ⟨op, hop, -⟩ := Option.map_eq_some_iff.1 hzero
  exact ⟨op, hop⟩

/-- An op waits for nothing exactly if all other ops that feed it have run. -/
theorem missing_eq_zero_iff (hl : g.Accounted) {done : List OpId} {op : Op} (ho : g.op? o = some op) :
    g.missing done op = 0 ↔ ∀ p, p ≠ o → g.Feeds p o → p ∈ done := by
  have hid := hl.opId ho
  rw [missing_eq_zero]
  constructor
  · rintro h p hne ⟨op', ho', t, ht, hp⟩
    cases ho.symm.trans ho'
    exact h p (mem_dependencies.2 ⟨hid ▸ hne, t, ht, hp⟩)
  · intro h p hp
    obtain ⟨hne, t, ht, hp⟩ := mem_dependencies.1 hp
    exact h p (hid ▸ hne) ⟨op, ho, t, ht, hp⟩

theorem Holds.ready_iff (hl : g.Accounted) {done : List OpId} {s : Pending} (h : Holds g done s) {op : Op}
    (ho : g.op? o = some op) : o ∈ s.ready ↔ o ∉ done ∧ ∀ p, p ≠ o → g.Feeds p o → p ∈ done := by
  rw [h.ready, h.waiting, ho, Option.map_some, Option.some.injEq, missing_eq_zero_iff hl ho]

/-- Among what has run there is, with an op, every other op that feeds it. -/
theorem Holds.mem_of_feeds (hl : g.Accounted) {done : List OpId} {s : Pending} (h : Holds g done s) (ho : o ∈ done)
    (hne : p ≠ o) (hf : g.Feeds p o) : p ∈ done := by
  obtain ⟨op, hop, -⟩ := id hf
  have hzero := h.settled o ho
  rw [h.waiting, hop, Option.map_some, Option.some.injEq] at hzero
  exact (missing_eq_zero_iff hl hop).1 hzero p hne hf

end Pending

/-- One step of the search: nothing is ready, or the least ready op runs. It breaks off there if the op reads its own
result. -/
theorem orderFrom_succ (hl : g.Accounted) {s : Pending} {done : List OpId} (hs : Pending.Holds g done s) (fuel : Nat) :
    (∀ o, o ∉ s.ready) ∧ g.orderFrom (fuel + 1) s = .ok [] ∨
      ∃ o, o ∈ s.ready ∧ (∀ q ∈ s.ready, o ≤ q) ∧
        (g.Feeds o o ∧ g.orderFrom (fuel + 1) s = .error .abort ∨
          ¬ g.Feeds o o ∧ ∃ s', Pending.Holds g (o :: done) s' ∧
            g.orderFrom (fuel + 1) s = (o :: ·) <$> g.orderFrom fuel s') := by
  cases hready : s.ready.toList with
  | nil =>
    refine .inl ⟨fun o ho => ?_, by unfold orderFrom; rw [hready]⟩
    rw [← SortedSet.mem_toList, hready] at ho
    cases ho
  | cons o rest =>
    have hmem : o ∈ s.ready := by
      rw [← SortedSet.mem_toList, hready]
      simp
    obtain ⟨op, ho⟩ := hs.op_of_ready hmem
    refine .inr ⟨o, hmem, fun q hq => ?_, ?_⟩
    · have hasc := s.ready.ascending
      rw [hready, List.pairwise_cons] at hasc
      rw [← SortedSet.mem_toList, hready] at hq
      rcases List.mem_cons.1 hq with rfl | hq
      · exact Nat.le_refl _
      · exact Nat.le_of_lt (Nat.compare_eq_lt.1 (hasc.1 q hq))
    · rw [orderFrom, hready]
      simp only [ho, Option.map_some, Option.getD_some]
      by_cases hself : g.Feeds o o
      · refine .inl ⟨hself, ?_⟩
        rcases Pending.settle_all_ends (g.successors op).toList { s with ready := s.ready.erase o } with habort | ⟨s', hs'⟩
        · rw [habort]
          rfl
        · obtain ⟨hnot, hfed, -⟩ := hs.run hl ho hmem hs'
          exact absurd (hfed o hself) hnot
      · obtain ⟨s', hs'⟩ := hs.settles hl ho ((hs.ready o).1 hmem).1 hself
        refine .inr ⟨hself, s', (hs.run hl ho hmem hs').2.2, ?_⟩
        rw [hs']
        exact bind_pure_comp (o :: ·) (g.orderFrom fuel s')

/-! ## Graphs without cycles have an order -/

/-- Some op that has not run has everything that it waits for, as long as any has not run. -/
theorem Acyclic.exists_ready (ha : g.Acyclic) (hl : g.Linked) {done : List OpId} :
    ∀ {o op}, g.op? o = some op → o ∉ done → ∃ q op', g.op? q = some op' ∧ q ∉ done ∧ ∀ p, g.Feeds p q → p ∈ done := by
  -- among the ops that have not run, one of the least depth
  intro o
  induction hn : g.depth o using Nat.strong_induction_on generalizing o with
  | _ n ih =>
    intro op ho hnot
    by_cases hall : ∀ p, g.Feeds p o → p ∈ done
    · exact ⟨o, op, ho, hnot, hall⟩
    · push Not at hall
      obtain ⟨p, hf, hp⟩ := hall
      obtain ⟨op', hop'⟩ := hl.op_of_feeds hf
      exact ih (g.depth p) (hn ▸ ha.depth_lt hl hf) rfl hop' hp

/-- The search goes on until its steps are used up or all ops have run. -/
theorem orderFrom_ok (hl : g.Linked) (ha : g.Acyclic) : ∀ (fuel : Nat) {s : Pending} {done : List OpId},
    Pending.Holds g done s → ∃ l, g.orderFrom fuel s = .ok l ∧
      (l.length = fuel ∨ ∀ {o op}, g.op? o = some op → o ∈ done ∨ o ∈ l)
  | 0, s, done, _ => ⟨[], rfl, .inl rfl⟩
  | fuel + 1, s, done, hs => by
    rcases orderFrom_succ hl.accounted hs fuel with ⟨hnone, h⟩ | ⟨o, -, -, ⟨hself, -⟩ | ⟨-, s', hs', h⟩⟩
    · refine ⟨[], h, .inr fun {o op} ho => .inl ?_⟩
      by_contra hnot
      obtain ⟨q, op', hq, hqnot, hfed⟩ := ha.exists_ready hl ho hnot
      exact hnone q ((hs.ready_iff hl.accounted hq).2 ⟨hqnot, fun p _ => hfed p⟩)
    · exact absurd (.single hself) (ha o)
    · obtain ⟨l, hl', hend⟩ := orderFrom_ok hl ha fuel hs'
      refine ⟨o :: l, by rw [h, hl']; rfl, ?_⟩
      rcases hend with hlen | hall
      · exact .inl (by rw [List.length_cons, hlen])
      · refine .inr fun {q op} hq => ?_
        rcases hall hq with hd | hq
        · rcases List.mem_cons.1 hd with rfl | hd
          · exact .inr (by simp)
          · exact .inl hd
        · exact .inr (List.mem_cons_of_mem _ hq)

theorem Schedule.length_le {l : List OpId} (h : Schedule g [] l) : l.length ≤ g.ops.size := by
  have hsub : l ⊆ g.ops.keys := fun p hp => Dict.mem_keys.2 (h.op p hp)
  have hle := (List.subperm_of_subset h.nodup hsub).length_le
  simpa [Dict.keys, Dict.size] using hle

/-- A graph without cycles has an order. -/
theorem Acyclic.order_ok (ha : g.Acyclic) (hl : g.Linked) : ∃ l, g.order = .ok l := by
  obtain ⟨l, h, hend⟩ := orderFrom_ok hl ha g.ops.size (Pending.holds_start g)
  have hsched := orderFrom_schedule hl.accounted (Pending.holds_start g) h
  have hlen : l.length = g.ops.size := by
    rcases hend with hlen | hall
    · exact hlen
    · have hsub : g.ops.keys ⊆ l := fun p hp => by
        obtain ⟨op, hop⟩ := Dict.mem_keys.1 hp
        exact (hall hop).resolve_left (by simp)
      have hge := (List.subperm_of_subset g.ops.nodup_keys hsub).length_le
      have hsize : g.ops.keys.length = g.ops.size := by simp [Dict.keys, Dict.size]
      have hle := hsched.length_le
      omega
  refine ⟨l, ?_⟩
  rw [order, h]
  exact if_neg (not_not.2 hlen)

/-! ## The least op runs first -/

/-- Each op of the list has the least number of all that can run; `done` have run before the list. -/
def LeastFirst (g : Graph) : List OpId → List OpId → Prop
  | _, [] => True
  | done, o :: l => (∀ q op, g.op? q = some op → q ∉ done → (∀ p, g.Feeds p q → p ∈ done) → o ≤ q) ∧
      LeastFirst g (o :: done) l

theorem orderFrom_leastFirst (hl : g.Accounted) : ∀ {fuel : Nat} {s : Pending} {done l : List OpId},
    Pending.Holds g done s → g.orderFrom fuel s = .ok l → LeastFirst g done l
  | 0, s, done, l, _, h => by
    cases h
    trivial
  | fuel + 1, s, done, l, hs, h => by
    rcases orderFrom_succ hl hs fuel with ⟨-, hnone⟩ | ⟨o, -, hleast, ⟨-, habort⟩ | ⟨-, s', hs', hcons⟩⟩
    · rw [hnone] at h
      cases h
      trivial
    · rw [habort] at h
      cases h
    · rw [hcons, ← bind_pure_comp] at h
      obtain ⟨rest, hrest, hpure⟩ := Outcome.bind_eq_ok.1 h
      cases hpure
      refine ⟨fun q op hq hnot hfed => hleast q ((hs.ready_iff hl hq).2 ⟨hnot, fun p _ => hfed p⟩), ?_⟩
      exact orderFrom_leastFirst hl hs' hrest

theorem order_leastFirst (hl : g.Linked) {l : List OpId} (h : g.order = .ok l) : LeastFirst g [] l := by
  unfold order at h
  obtain ⟨ids, hids, h⟩ := Outcome.bind_eq_ok.1 h
  split at h
  · cases h
  · cases h
    exact orderFrom_leastFirst hl.accounted (Pending.holds_start g) hids

/-- All that feeds an op that has run has run. -/
def Closed (g : Graph) (done : List OpId) : Prop := ∀ p q, g.Feeds p q → q ∈ done → p ∈ done

theorem Closed.cons {done : List OpId} (h : g.Closed done) (hfed : ∀ p, g.Feeds p o → p ∈ done) : g.Closed (o :: done) := by
  intro p q hf hq
  refine List.mem_cons_of_mem _ ?_
  rcases List.mem_cons.1 hq with rfl | hq
  · exact hfed p hf
  · exact h p q hf hq

/-- What an op depends on has run before it, not only what feeds it. -/
theorem Closed.mem_of_transGen {done : List OpId} (h : g.Closed done) (hfed : ∀ p, g.Feeds p o → p ∈ done)
    (hdep : Relation.TransGen g.Feeds p o) : p ∈ done := by
  induction hdep using Relation.TransGen.head_induction_on with
  | single hf => exact hfed _ hf
  | head hf _ ih => exact h _ _ hf ih

/-! ## Ordered ops -/

namespace Complete

variable {l : List OpId}

theorem mem_iff (h : Complete g l) : o ∈ l ↔ ∃ op, g.op? o = some op :=
  ⟨h.schedule.op o, fun ⟨_, ho⟩ => h.all ho⟩

theorem map_id (h : Complete g l) (hl : g.Linked) : (l.filterMap g.op?).map (·.id) = l := by
  have hids : ∀ m : List OpId, (∀ o ∈ m, ∃ op, g.op? o = some op) → (m.filterMap g.op?).map (·.id) = m := by
    intro m hm
    induction m with
    | nil => rfl
    | cons o m ih =>
      obtain ⟨op, ho⟩ := hm o (by simp)
      rw [List.filterMap_cons, ho, List.map_cons, hl.opId ho, ih fun q hq => hm q (by simp [hq])]
  exact hids l h.schedule.op

theorem mem_ops (h : Complete g l) (hl : g.Linked) {op : Op} : op ∈ l.filterMap g.op? ↔ g.op? op.id = some op := by
  rw [List.mem_filterMap]
  constructor
  · rintro ⟨o, -, ho⟩
    rw [hl.opId ho, ho]
  · intro ho
    exact ⟨op.id, h.all ho, ho⟩

/-- The ops in the order in which they run are all ops. -/
theorem perm_values (h : Complete g l) (hl : g.Linked) : (l.filterMap g.op?).Perm g.ops.values := by
  have hnodup : (l.filterMap g.op?).Nodup := by
    refine List.Nodup.of_map (·.id) ?_
    rw [h.map_id hl]
    exact h.schedule.nodup
  have hvalues : g.ops.values.Nodup := by
    refine List.Nodup.of_map (·.id) ?_
    have hkeys : g.ops.values.map (·.id) = g.ops.keys := by
      rw [Dict.values, Dict.keys, List.map_map]
      refine List.map_congr_left fun e he => ?_
      exact hl.opId (Dict.mem_entries.1 he)
    rw [hkeys]
    exact g.ops.nodup_keys
  refine (List.perm_ext_iff_of_nodup hnodup hvalues).2 fun op => ?_
  rw [h.mem_ops hl, Dict.mem_values]
  constructor
  · exact fun ho => ⟨op.id, ho⟩
  · rintro ⟨o, ho⟩
    rw [hl.opId ho]
    exact ho

end Complete

/-! ## Graphs with the same order -/

/-- The order comes from what the ops read and produce. -/
theorem order_congr (hops : ∀ o, (g'.op? o).map (fun op => (op.id, op.inputs, op.outputs)) =
      (g.op? o).map fun op => (op.id, op.inputs, op.outputs)) (htensors : g'.tensors = g.tensors) : g'.order = g.order := by
  have htensor : ∀ t, g'.tensor? t = g.tensor? t := fun t => by rw [tensor?, tensor?, htensors]
  have hproducer : g'.producer? = g.producer? := funext fun t => by rw [producer?, producer?, htensor]
  have hconsumers : g'.consumers = g.consumers := funext fun t => by rw [consumers, consumers, htensor]
  have hmap : ∀ {β : Type} (F : OpId × List TensorId × List TensorId → β) (o : OpId),
      (g'.op? o).map (fun op => F (op.id, op.inputs, op.outputs)) =
        (g.op? o).map fun op => F (op.id, op.inputs, op.outputs) := fun F o => by
    have hF := congrArg (Option.map F) (hops o)
    rwa [Option.map_map, Option.map_map] at hF
  have hwaiting : (g'.ops.map fun _ op => (g'.dependencies op).size) = g.ops.map fun _ op => (g.dependencies op).size := by
    refine Dict.ext_get? fun o => ?_
    rw [Dict.get?_map, Dict.get?_map]
    unfold dependencies
    rw [hproducer]
    exact hmap (fun x => (SortedSet.ofList ((x.2.1.filterMap g.producer?).filter (· ≠ x.1))).size) o
  have hsize : g'.ops.size = g.ops.size := by
    have hlength := congrArg Dict.size hwaiting
    simpa [Dict.size, Dict.map] using hlength
  have hnext : ∀ o, (g'.op? o).map (fun op => (g'.successors op).toList) = (g.op? o).map fun op => (g.successors op).toList := by
    unfold successors
    rw [hconsumers]
    exact hmap fun x => (SortedSet.ofList (x.2.2.flatMap g.consumers)).toList
  have hfrom : ∀ fuel s, g'.orderFrom fuel s = g.orderFrom fuel s := by
    intro fuel
    induction fuel with
    | zero => exact fun _ => rfl
    | succ fuel ih =>
      intro s
      unfold orderFrom
      simp only [hnext, ih]
  unfold order Pending.start
  rw [hsize, hwaiting, hfrom]

end Graph

end TensorGraph
