import TensorGraph.Placement.Stage
import TensorGraph.Proofs.Graph.Order

/-!
What stages keep while they are found, split and dealt out. In every stage the ops stand in the order in which they
run, and whatever feeds an op of a stage stands in the same stage or runs before its first op. Grouping has this
because an op joins a stage only if everything that feeds it is there; cutting a stage has it because an op of the
rear part that is fed from the front part is fed from before the first op of the rear part. So stages in the order of
their first ops never feed backwards, whatever balance decides where they are cut and how they are dealt out.
-/
namespace TensorGraph

theorem sumOf_eq_sum (l : List Nat) : sumOf l = l.sum := rfl

namespace Placement

variable {g : Graph} {pos : OpId → Nat} {entries : List (OpId × Nat)} {stages : List Stage} {s : Stage}
  {p q : OpId} {balance : Balance}

/-! ## Arrangements -/

/-- The ops of a stage. -/
def Stage.ids (s : Stage) : List OpId := s.ops.map (·.1)

/-- A stage begins at its position, runs in order, and is fed from within or from before. -/
structure Stage.Runs (g : Graph) (pos : OpId → Nat) (s : Stage) : Prop where
  first : s.ops.head?.map (fun e => pos e.1) = some s.position
  ascending : s.ops.Pairwise fun a b => pos a.1 < pos b.1
  fed : ∀ {p q}, q ∈ s.ids → g.Feeds p q → p ∈ s.ids ∨ pos p < s.position

/-- Stages that hold the given ops, each once. -/
structure Arranged (g : Graph) (pos : OpId → Nat) (entries : List (OpId × Nat)) (stages : List Stage) : Prop where
  runs : ∀ s ∈ stages, s.Runs g pos
  perm : (stages.flatMap (·.ops)).Perm entries

namespace Stage.Runs

theorem ops_ne_nil (h : s.Runs g pos) : s.ops ≠ [] := by
  intro hnil
  have hfirst := h.first
  rw [hnil] at hfirst
  cases hfirst

theorem position_le (h : s.Runs g pos) (hp : p ∈ s.ids) : s.position ≤ pos p := by
  obtain ⟨e, he, rfl⟩ := List.mem_map.1 hp
  have hfirst := h.first
  have hasc := h.ascending
  cases hops : s.ops with
  | nil => rw [hops] at he; cases he
  | cons a rest =>
    rw [hops] at he hfirst hasc
    have ha : pos a.1 = s.position := Option.some.inj hfirst
    rcases List.mem_cons.1 he with rfl | he
    · omega
    · have := (List.pairwise_cons.1 hasc).1 e he
      omega

/-- The front part of a stage. An op there is fed from the front part if it is fed from the stage. -/
theorem front (h : s.Runs g pos) (hpos : ∀ {p q}, g.Feeds p q → pos p < pos q) {front rear : List (OpId × Nat)}
    (hops : s.ops = front ++ rear) (hne : front ≠ []) : Runs g pos { s with ops := front } := by
  obtain ⟨e, rest, rfl⟩ := List.exists_cons_of_ne_nil hne
  have hfirst := h.first
  have hasc := h.ascending
  rw [hops] at hfirst hasc
  obtain ⟨hfront, -, hcross⟩ := List.pairwise_append.1 hasc
  refine ⟨hfirst, hfront, fun {p q} hq hf => ?_⟩
  have hqs : q ∈ s.ids := by
    rw [ids, hops, List.map_append, List.mem_append]
    exact .inl hq
  rcases h.fed hqs hf with hp | hp
  · rw [ids, hops, List.map_append, List.mem_append] at hp
    rcases hp with hp | hp
    · exact .inl hp
    · obtain ⟨a, ha, rfl⟩ := List.mem_map.1 hq
      obtain ⟨b, hb, rfl⟩ := List.mem_map.1 hp
      have hback := hcross a ha b hb
      have hforth := hpos hf
      omega
  · exact .inr hp

/-- The rear part of a stage. -/
theorem rear (h : s.Runs g pos) {front rear : List (OpId × Nat)} {e : OpId × Nat}
    (hops : s.ops = front ++ e :: rear) : Runs g pos ⟨pos e.1, e :: rear⟩ := by
  have hasc := h.ascending
  rw [hops] at hasc
  obtain ⟨-, hrear, hcross⟩ := List.pairwise_append.1 hasc
  refine ⟨rfl, hrear, fun {p q} hq hf => ?_⟩
  have hqs : q ∈ s.ids := by
    rw [ids, hops, List.map_append, List.mem_append]
    exact .inr hq
  rcases h.fed hqs hf with hp | hp
  · rw [ids, hops, List.map_append, List.mem_append] at hp
    rcases hp with hp | hp
    · obtain ⟨a, ha, rfl⟩ := List.mem_map.1 hp
      exact .inr (hcross a ha e (by simp))
    · exact .inl hp
  · have he : e.1 ∈ s.ids := by
      rw [ids, hops]
      simp
    have := h.position_le he
    exact .inr (by simp only; omega)

/-- An op that runs after those of a stage, and is fed from there, joins it. -/
theorem push (h : s.Runs g pos) {e : OpId × Nat} (hfed : ∀ p, g.Feeds p e.1 → p ∈ s.ids)
    (hlast : ∀ e' ∈ s.ops, pos e'.1 < pos e.1) : Runs g pos { s with ops := s.ops ++ [e] } := by
  refine ⟨?_, ?_, fun {p q} hq hf => ?_⟩
  · rw [List.head?_append_of_ne_nil _ h.ops_ne_nil]
    exact h.first
  · refine List.pairwise_append.2 ⟨h.ascending, List.pairwise_singleton .., fun a ha b hb => ?_⟩
    cases List.mem_singleton.1 hb
    exact hlast a ha
  · simp only [ids, List.map_append, List.mem_append] at hq ⊢
    rcases hq with hq | hq
    · exact (h.fed hq hf).imp_left .inl
    · cases List.mem_singleton.1 hq
      exact .inl (.inl (hfed p hf))

end Stage.Runs

namespace Arranged

theorem mem_entries (h : Arranged g pos entries stages) (hs : s ∈ stages) {e : OpId × Nat} (he : e ∈ s.ops) :
    e ∈ entries := h.perm.mem_iff.1 (List.mem_flatMap.2 ⟨s, hs, he⟩)

theorem exists_stage (h : Arranged g pos entries stages) {e : OpId × Nat} (he : e ∈ entries) :
    ∃ s ∈ stages, e ∈ s.ops := List.mem_flatMap.1 (h.perm.mem_iff.2 he)

theorem sum_costs (h : Arranged g pos entries stages) :
    sumOf (stages.map (·.cost)) = sumOf (entries.map (·.2)) := by
  have hsum : ∀ l : List Stage, sumOf (l.map (·.cost)) = sumOf ((l.flatMap (·.ops)).map (·.2)) := by
    intro l
    induction l with
    | nil => rfl
    | cons a l ih =>
      simp only [List.map_cons, List.flatMap_cons, List.map_append, sumOf_eq_sum, List.sum_cons,
        List.sum_append] at ih ⊢
      rw [ih]
      rfl
  rw [hsum]
  exact (h.perm.map _).sum_eq

theorem cost_le (h : Arranged g pos entries stages) (hs : s ∈ stages) : s.cost ≤ sumOf (entries.map (·.2)) := by
  rw [← h.sum_costs]
  exact List.le_sum_of_mem (List.mem_map.2 ⟨s, hs, rfl⟩)

theorem length_le (h : Arranged g pos entries stages) : stages.length ≤ entries.length := by
  rw [← h.perm.length_eq, List.length_flatMap]
  have hone : ∀ l : List Stage, (∀ s ∈ l, s.Runs g pos) → l.length ≤ (l.map fun s => s.ops.length).sum := by
    intro l hl
    induction l with
    | nil => simp
    | cons a l ih =>
      have ha := List.length_pos_of_ne_nil (hl a (by simp)).ops_ne_nil
      have := ih fun s hs => hl s (by simp [hs])
      simp only [List.length_cons, List.map_cons, List.sum_cons]
      omega
  exact hone stages h.runs

end Arranged

/-! ## Cuts -/

namespace Stage

theorem mem_cuts : ∀ {ops : List (OpId × Nat)} {taken spent : Nat} {cut : Nat × Nat},
    cut ∈ cuts ops taken spent → taken < cut.1 ∧ cut.1 < taken + ops.length
  | [], _, _, _, h => by cases h
  | [_], _, _, _, h => by cases h
  | (_, c) :: b :: rest, taken, spent, cut, h => by
    rw [cuts] at h
    · simp only [List.length_cons]
      rcases List.mem_cons.1 h with rfl | h
      · simp only
        omega
      · have := mem_cuts h
        simp only [List.length_cons] at this
        omega
    · simp

theorem cuts_eq_nil {ops : List (OpId × Nat)} {taken spent : Nat} : cuts ops taken spent = [] ↔ ops.length ≤ 1 := by
  match ops with
  | [] => simp [cuts]
  | [_] => simp [cuts]
  | a :: b :: rest => simp [cuts]

theorem nearerCut_cases (total : Nat) (best : Option (Nat × Nat)) (cut : Nat × Nat) :
    nearerCut balance total best cut = some cut ∨
      nearerCut balance total best cut = best ∧ ∃ b, best = some b := by
  cases best with
  | none => exact .inl rfl
  | some b =>
    simp only [nearerCut]
    split
    · exact .inl rfl
    · exact .inr ⟨rfl, b, rfl⟩

/-- The cut that stays when cuts are compared one after the other is one of them. -/
theorem foldl_nearerCut {total : Nat} : ∀ (l : List (Nat × Nat)) (best : Option (Nat × Nat)),
    (l.foldl (nearerCut balance total) best = none ↔ best = none ∧ l = []) ∧
      ∀ cut, l.foldl (nearerCut balance total) best = some cut → best = some cut ∨ cut ∈ l
  | [], best => by simp
  | a :: l, best => by
    obtain ⟨hnone, hsome⟩ := foldl_nearerCut l (nearerCut balance total best a)
    rw [List.foldl_cons]
    rcases nearerCut_cases total best a with h | ⟨h, b, rfl⟩
    · rw [h] at hnone hsome ⊢
      refine ⟨by simpa using hnone, fun cut hcut => .inr ?_⟩
      rcases hsome cut hcut with hcut | hcut
      · exact List.mem_cons.2 (.inl (Option.some.inj hcut).symm)
      · exact List.mem_cons_of_mem _ hcut
    · rw [h] at hnone hsome ⊢
      refine ⟨by simpa using hnone, fun cut hcut => ?_⟩
      exact (hsome cut hcut).imp_right (List.mem_cons_of_mem _)

theorem bestCut?_eq_none : s.bestCut? balance = none ↔ s.ops.length ≤ 1 := by
  unfold bestCut?
  rw [Option.map_eq_none_iff, (foldl_nearerCut _ none).1, cuts_eq_nil]
  simp

theorem bestCut?_bounds {n : Nat} (h : s.bestCut? balance = some n) : 0 < n ∧ n < s.ops.length := by
  unfold bestCut? at h
  obtain ⟨cut, hcut, rfl⟩ := Option.map_eq_some_iff.1 h
  have hmem := ((foldl_nearerCut _ none).2 cut hcut).resolve_left (by simp)
  simpa using mem_cuts hmem

end Stage

theorem costlier_cases (balance : Balance) (best : Option (Nat × Stage × Nat)) (entry : Stage × Nat) :
    costlier balance best entry = best ∧ (entry.1.bestCut? balance = none ∨ ∃ b, best = some b) ∨
      ∃ cut, entry.1.bestCut? balance = some cut ∧ costlier balance best entry = some (entry.2, entry.1, cut) := by
  unfold costlier
  split
  · rename_i hcut
    exact .inl ⟨rfl, .inl hcut⟩
  · rename_i cut b hcut
    split
    · exact .inl ⟨rfl, .inr ⟨b, rfl⟩⟩
    · exact .inr ⟨cut, hcut, rfl⟩
  · rename_i cut hcut
    exact .inr ⟨cut, hcut, rfl⟩

/-- The stage that stays when stages are compared one after the other is one that can be cut. -/
theorem foldl_costlier : ∀ (l : List (Stage × Nat)) (best : Option (Nat × Stage × Nat)),
    (l.foldl (costlier balance) best = none → best = none ∧ ∀ e ∈ l, e.1.bestCut? balance = none) ∧
      ∀ i s n, l.foldl (costlier balance) best = some (i, s, n) →
        best = some (i, s, n) ∨ (s, i) ∈ l ∧ s.bestCut? balance = some n
  | [], best => by simp
  | a :: l, best => by
    obtain ⟨hnone, hsome⟩ := foldl_costlier l (costlier balance best a)
    rw [List.foldl_cons]
    rcases costlier_cases balance best a with ⟨h, hwhy⟩ | ⟨cut, hcut, h⟩
    · rw [h] at hnone hsome ⊢
      constructor
      · intro hall
        obtain ⟨rfl, hrest⟩ := hnone hall
        refine ⟨rfl, fun e he => ?_⟩
        rcases List.mem_cons.1 he with rfl | he
        · exact hwhy.resolve_right (by simp)
        · exact hrest e he
      · intro i s n hchosen
        exact (hsome i s n hchosen).imp_right fun hs => ⟨List.mem_cons_of_mem _ hs.1, hs.2⟩
    · rw [h] at hnone hsome ⊢
      constructor
      · intro hall
        exact nomatch (hnone hall).1
      · intro i s n hchosen
        rcases hsome i s n hchosen with heq | hs
        · cases heq
          exact .inr ⟨by simp, hcut⟩
        · exact .inr ⟨List.mem_cons_of_mem _ hs.1, hs.2⟩

theorem costliest?_eq_none (h : costliest? balance stages = none) : ∀ s ∈ stages, s.ops.length ≤ 1 := by
  intro s hs
  obtain ⟨i, hi⟩ := List.mem_iff_getElem?.1 hs
  exact Stage.bestCut?_eq_none.1 (((foldl_costlier _ none).1 h).2 (s, i) (List.mk_mem_zipIdx_iff_getElem?.2 hi))

theorem costliest?_eq_some {i n : Nat} (h : costliest? balance stages = some (i, s, n)) :
    stages[i]? = some s ∧ 0 < n ∧ n < s.ops.length := by
  obtain ⟨hmem, hcut⟩ := ((foldl_costlier _ none).2 i s n h).resolve_left (by simp)
  exact ⟨List.mk_mem_zipIdx_iff_getElem?.1 hmem, Stage.bestCut?_bounds hcut⟩

/-! ## Splitting -/

theorem exists_split_of_getElem? {α : Type} {l : List α} {i : Nat} {a : α} (h : l[i]? = some a) :
    ∃ front rear, l = front ++ a :: rear ∧ front.length = i := by
  obtain ⟨hi, rfl⟩ := List.getElem?_eq_some_iff.1 h
  refine ⟨l.take i, l.drop (i + 1), ?_, by rw [List.length_take]; omega⟩
  rw [← List.drop_eq_getElem_cons hi, List.take_append_drop]

/-- A stage is cut in two. -/
theorem Arranged.cut (h : Arranged g pos entries stages) (hpos : ∀ {p q}, g.Feeds p q → pos p < pos q) {i n : Nat}
    (hs : stages[i]? = some s) (hn : 0 < n ∧ n < s.ops.length) :
    Arranged g pos entries (stages.set i { s with ops := s.ops.take n } ++
      [⟨((s.ops.drop n).head?.map fun e => pos e.1).getD 0, s.ops.drop n⟩]) := by
  obtain ⟨before, after, rfl, rfl⟩ := exists_split_of_getElem? hs
  have hrun := h.runs s (by simp)
  obtain ⟨e, rear, hrear⟩ : ∃ e rear, s.ops.drop n = e :: rear :=
    List.exists_cons_of_ne_nil (by rw [ne_eq, List.drop_eq_nil_iff]; omega)
  have hops : s.ops = s.ops.take n ++ e :: rear := by rw [← hrear, List.take_append_drop]
  have hfront : s.ops.take n ≠ [] := by
    rw [ne_eq, List.take_eq_nil_iff]
    rintro (h0 | h0)
    · omega
    · exact hrun.ops_ne_nil h0
  have hset : (before ++ s :: after).set before.length { s with ops := s.ops.take n } =
      before ++ { s with ops := s.ops.take n } :: after := by simp
  rw [hset, hrear]
  refine ⟨fun t ht => ?_, ?_⟩
  · simp only [List.mem_append, List.mem_cons, List.not_mem_nil, or_false] at ht
    rcases ht with (ht | rfl | ht) | rfl
    · exact h.runs t (by simp [ht])
    · exact hrun.front hpos hops hfront
    · exact h.runs t (by simp [ht])
    · exact hrun.rear hops
  · refine List.Perm.trans ?_ h.perm
    -- the rear part moves from its place to the end
    have hmove : (s.ops.take n ++ (after.flatMap (·.ops) ++ e :: rear)).Perm (s.ops ++ after.flatMap (·.ops)) := by
      nth_rewrite 2 [hops]
      rw [List.append_assoc]
      exact (List.perm_append_comm).append_left _
    simpa [List.flatMap_append] using hmove.append_left (before.flatMap (·.ops))

theorem forM_word_ok {l : List Stage} (h : ∀ s ∈ l, s.cost < Word.limit) :
    (l.forM fun s => do let _ ← Word.nat s.cost : Outcome PUnit) = .ok () := by
  induction l with
  | nil => rfl
  | cons a l ih =>
    have ha : Word.nat a.cost = .ok a.cost := Word.nat_eq_ok_iff.2 ⟨h a (by simp), rfl⟩
    rw [List.forM, ha]
    exact ih fun s hs => h s (by simp [hs])

/-- Splitting gives as many stages as it should, or there are not so many ops. -/
theorem split_arranged (balance : Balance) (wanted : Nat) (hpos : ∀ {p q}, g.Feeds p q → pos p < pos q)
    (hsum : sumOf (entries.map (·.2)) < Word.limit) : ∀ (missing : Nat) {stages : List Stage},
    Arranged g pos entries stages →
      (∃ stages', split balance pos wanted missing stages = .ok stages' ∧ Arranged g pos entries stages' ∧
        stages'.length = stages.length + missing) ∨
      entries.length < stages.length + missing ∧
        ∃ cause, split balance pos wanted missing stages = .fail (.placement cause)
  | 0, stages, h => .inl ⟨stages, rfl, h, rfl⟩
  | missing + 1, stages, h => by
    have hcosts : ∀ s ∈ stages.filter (1 < ·.ops.length), s.cost < Word.limit := fun s hs =>
      lt_of_le_of_lt (h.cost_le (List.mem_filter.1 hs).1) hsum
    rw [split, forM_word_ok hcosts]
    cases hbest : costliest? balance stages with
    | none =>
      -- every stage is a single op, so there are as many stages as ops
      have hone := costliest?_eq_none hbest
      have hlen : entries.length ≤ stages.length := by
        rw [← h.perm.length_eq, List.length_flatMap]
        have := List.sum_le_card_nsmul (stages.map fun s => s.ops.length) 1 (by simpa using hone)
        simpa using this
      exact .inr ⟨by omega, _, rfl⟩
    | some best =>
      obtain ⟨i, s, n⟩ := best
      obtain ⟨hs, hn⟩ := costliest?_eq_some hbest
      have hcut := h.cut hpos hs hn
      have hlen : ∀ t : Stage, (stages.set i { s with ops := s.ops.take n } ++ [t]).length = stages.length + 1 := by
        simp
      rcases split_arranged balance wanted hpos hsum missing hcut with ⟨stages', hok, harr, hlen'⟩ | ⟨hfew, cause, hfail⟩
      · exact .inl ⟨stages', hok, harr, by rw [hlen', hlen]; omega⟩
      · rw [hlen] at hfew
        exact .inr ⟨by omega, cause, hfail⟩

/-! ## Grouping -/

/-- The stages hold the given ops, and each op knows the number of its stage. -/
structure Grouping.Holds (g : Graph) (pos : OpId → Nat) (entries : List (OpId × Nat)) (s : Grouping) : Prop where
  arranged : Arranged g pos entries s.stages
  stageOf : ∀ id i, s.stageOf.get? id = some i ↔ ∃ t, s.stages[i]? = some t ∧ id ∈ t.ids

namespace Grouping.Holds

variable {s : Grouping} {op : Op} {c : Nat}

theorem empty : Holds g pos [] {} := ⟨⟨by simp, by simp⟩, by simp⟩

theorem not_mem (h : Holds g pos entries s) (hlast : ∀ e ∈ entries, pos e.1 < pos op.id) {t : Stage}
    (ht : t ∈ s.stages) : op.id ∉ t.ids := by
  intro hmem
  obtain ⟨e, he, heq⟩ := List.mem_map.1 hmem
  have := hlast e (h.arranged.mem_entries ht he)
  rw [heq] at this
  omega

/-- The op is noted in its stage, and all others stay where they are. -/
theorem stageOf_insert (h : Holds g pos entries s) (hlast : ∀ e ∈ entries, pos e.1 < pos op.id) {k : Nat}
    {later : List Stage} (hlater : ∀ id i, (∃ t, later[i]? = some t ∧ id ∈ t.ids) ↔
      (id = op.id ∧ i = k) ∨ ∃ t, s.stages[i]? = some t ∧ id ∈ t.ids) (id : OpId) (i : Nat) :
    (s.stageOf.insert op.id k).get? id = some i ↔ ∃ t, later[i]? = some t ∧ id ∈ t.ids := by
  rw [Dict.get?_insert, hlater, ← h.stageOf]
  by_cases hid : op.id = id
  · subst hid
    have hnot : s.stageOf.get? op.id ≠ some i := by
      intro hi
      obtain ⟨t, ht, hmem⟩ := (h.stageOf _ _).1 hi
      exact h.not_mem hlast (List.mem_of_getElem? ht) hmem
    simp [hnot, eq_comm]
  · simp [hid, Ne.symm hid]

/-- An op starts a stage. -/
theorem start (h : Holds g pos entries s) (hfed : ∀ p, g.Feeds p op.id → pos p < pos op.id)
    (hlast : ∀ e ∈ entries, pos e.1 < pos op.id) :
    Holds g pos (entries ++ [(op.id, c)])
      { stages := s.stages ++ [⟨pos op.id, [(op.id, c)]⟩], stageOf := s.stageOf.insert op.id s.stages.length } := by
  refine ⟨⟨fun t ht => ?_, ?_⟩, h.stageOf_insert hlast fun id i => ?_⟩
  · rcases List.mem_append.1 ht with ht | ht
    · exact h.arranged.runs t ht
    · cases List.mem_singleton.1 ht
      refine ⟨rfl, by simp, fun {p q} hq hf => .inr ?_⟩
      have hq : q = op.id := by simpa [Stage.ids] using hq
      exact hfed p (hq ▸ hf)
  · simpa [List.flatMap_append] using h.arranged.perm.append_right [(op.id, c)]
  · rcases Nat.lt_trichotomy i s.stages.length with hi | rfl | hi
    · have hne : i ≠ s.stages.length := Nat.ne_of_lt hi
      simp [List.getElem?_append_left hi, hne]
    · simp [Stage.ids]
    · have hne : i ≠ s.stages.length := Nat.ne_of_gt hi
      have hlong : (s.stages ++ [(⟨pos op.id, [(op.id, c)]⟩ : Stage)]).length ≤ i := by
        rw [List.length_append, List.length_singleton]
        exact hi
      rw [List.getElem?_eq_none hlong, List.getElem?_eq_none (Nat.le_of_lt hi)]
      simp [hne]

/-- An op joins the stage of all that feeds it. -/
theorem join (h : Holds g pos entries s) {owner : Nat} {t : Stage} (ht : s.stages[owner]? = some t)
    (hfed : ∀ p, g.Feeds p op.id → p ∈ t.ids) (hlast : ∀ e ∈ entries, pos e.1 < pos op.id) :
    Holds g pos (entries ++ [(op.id, c)])
      { stages := s.stages.modify owner fun t => { t with ops := t.ops ++ [(op.id, c)] }
        stageOf := s.stageOf.insert op.id owner } := by
  have hmem := List.mem_of_getElem? ht
  have hpush := (h.arranged.runs t hmem).push (e := (op.id, c)) hfed fun e he => hlast e (h.arranged.mem_entries hmem he)
  obtain ⟨before, after, heq, rfl⟩ := exists_split_of_getElem? ht
  have hmodify : (s.stages.modify before.length fun t => { t with ops := t.ops ++ [(op.id, c)] }) =
      before ++ { t with ops := t.ops ++ [(op.id, c)] } :: after := by
    rw [List.modify_eq_set_getElem?, ht, heq]
    simp
  rw [hmodify]
  refine ⟨⟨fun u hu => ?_, ?_⟩, h.stageOf_insert hlast fun id i => ?_⟩
  · rcases List.mem_append.1 hu with hu | hu
    · exact h.arranged.runs u (heq ▸ List.mem_append_left _ hu)
    · rcases List.mem_cons.1 hu with rfl | hu
      · exact hpush
      · exact h.arranged.runs u (heq ▸ List.mem_append_right _ (List.mem_cons_of_mem _ hu))
  · -- the new op moves from the end of its stage to the end
    have hmove : (t.ops ++ [(op.id, c)] ++ after.flatMap (·.ops)).Perm
        (t.ops ++ after.flatMap (·.ops) ++ [(op.id, c)]) := by
      rw [List.append_assoc, List.append_assoc]
      exact List.perm_append_comm.append_left _
    have hperm := heq ▸ h.arranged.perm
    refine List.Perm.trans ?_ (hperm.append_right [(op.id, c)])
    simpa [List.flatMap_append] using hmove.append_left (before.flatMap (·.ops))
  · rw [heq]
    rcases Nat.lt_trichotomy i before.length with hi | rfl | hi
    · have hne : i ≠ before.length := Nat.ne_of_lt hi
      simp [List.getElem?_append_left hi, hne]
    · simp [Stage.ids, exists_or, or_comm]
    · have hne : i ≠ before.length := Nat.ne_of_gt hi
      obtain ⟨k, hk⟩ := Nat.exists_eq_add_of_lt (Nat.sub_pos_of_lt hi)
      rw [List.getElem?_append_right hi.le, List.getElem?_append_right hi.le, hk]
      simp [hne]

/-- An op that runs after all ops so far, which are all that feeds it. -/
theorem add (h : Holds g pos entries s) {training : Bool} (hop : g.op? op.id = some op)
    (hcost : g.cost op training = .ok c) (hlast : ∀ e ∈ entries, pos e.1 < pos op.id)
    (hfed : ∀ p, g.Feeds p op.id → ∃ e ∈ entries, e.1 = p) :
    ∃ s', s.add g training op (pos op.id) = .ok s' ∧ Holds g pos (entries ++ [(op.id, c)]) s' := by
  have hbefore : ∀ p, g.Feeds p op.id → pos p < pos op.id := by
    intro p hf
    obtain ⟨e, he, rfl⟩ := hfed p hf
    exact hlast e he
  have howner : ∀ p, g.Feeds p op.id → ∃ i t, s.stages[i]? = some t ∧ p ∈ t.ids ∧
      i ∈ SortedSet.ofList ((g.dependencies op).toList.filterMap s.stageOf.get?) := by
    intro p hf
    obtain ⟨e, he, rfl⟩ := hfed p hf
    obtain ⟨t, ht, het⟩ := h.arranged.exists_stage he
    obtain ⟨i, hi⟩ := List.mem_iff_getElem?.1 ht
    have hmem : e.1 ∈ t.ids := List.mem_map.2 ⟨e, het, rfl⟩
    refine ⟨i, t, hi, hmem, SortedSet.mem_ofList.2 (List.mem_filterMap.2 ⟨e.1, ?_, (h.stageOf _ _).2 ⟨t, hi, hmem⟩⟩)⟩
    obtain ⟨op', hop', x, hx, hp⟩ := hf
    cases hop.symm.trans hop'
    have hne : e.1 ≠ op.id := by
      intro heq
      have := hlast e he
      rw [heq] at this
      omega
    exact Graph.mem_dependencies.2 ⟨hne, x, hx, hp⟩
  simp only [Grouping.add, hcost]
  split
  · rename_i owner howners
    have hmember : owner ∈ SortedSet.ofList ((g.dependencies op).toList.filterMap s.stageOf.get?) := by
      rw [← SortedSet.mem_toList, howners]
      simp
    obtain ⟨p, -, hp⟩ := List.mem_filterMap.1 (SortedSet.mem_ofList.1 hmember)
    obtain ⟨t, ht, -⟩ := (h.stageOf p owner).1 hp
    refine ⟨_, rfl, h.join ht (fun p hf => ?_) hlast⟩
    obtain ⟨i, t', hi, hmem, hin⟩ := howner p hf
    rw [← SortedSet.mem_toList, howners, List.mem_singleton] at hin
    cases hin
    cases ht.symm.trans hi
    exact hmem
  · exact ⟨_, rfl, h.start hbefore hlast⟩

end Grouping.Holds

/-- Ops are grouped in the order in which they run. -/
theorem foldlM_add {training : Bool} {c : Op → Nat} : ∀ {todo : List (Op × Nat)} {entries : List (OpId × Nat)}
    {s : Grouping}, s.Holds g pos entries →
    (∀ e ∈ todo, e.2 = pos e.1.id ∧ g.op? e.1.id = some e.1 ∧ g.cost e.1 training = .ok (c e.1)) →
    (todo.Pairwise fun a b => pos a.1.id < pos b.1.id) → (∀ e ∈ entries, ∀ b ∈ todo, pos e.1 < pos b.1.id) →
    (∀ b ∈ todo, ∀ p, g.Feeds p b.1.id →
      pos p < pos b.1.id ∧ ((∃ e ∈ entries, e.1 = p) ∨ ∃ a ∈ todo, a.1.id = p)) →
    ∃ s', todo.foldlM (fun s (op, i) => s.add g training op i) s = .ok s' ∧
      s'.Holds g pos (entries ++ todo.map fun e => (e.1.id, c e.1))
  | [], entries, s, h, _, _, _, _ => ⟨s, rfl, by simpa using h⟩
  | (op, i) :: todo, entries, s, h, hops, hasc, hlast, hfed => by
    obtain ⟨hi, hop, hcost⟩ := hops (op, i) (by simp)
    simp only at hi hop hcost
    subst hi
    rw [List.pairwise_cons] at hasc
    have hfirst : ∀ p, g.Feeds p op.id → ∃ e ∈ entries, e.1 = p := by
      intro p hf
      obtain ⟨hlt, hknown | ⟨a, ha, rfl⟩⟩ := hfed (op, pos op.id) (by simp) p hf
      · exact hknown
      · -- what comes later feeds nothing that comes now
        rcases List.mem_cons.1 ha with rfl | ha
        · exact absurd hlt (Nat.lt_irrefl _)
        · exact absurd (hasc.1 a ha) (by simp only at hlt ⊢; omega)
    obtain ⟨s₁, h1, hs₁⟩ := h.add hop hcost (fun e he => hlast e he (op, pos op.id) (by simp)) hfirst
    obtain ⟨s', h2, hs'⟩ := foldlM_add (c := c) hs₁ (fun e he => hops e (by simp [he])) hasc.2
      (fun e he b hb => by
        rcases List.mem_append.1 he with he | he
        · exact hlast e he b (by simp [hb])
        · cases List.mem_singleton.1 he
          exact hasc.1 b hb)
      (fun b hb p hf => by
        refine (hfed b (by simp [hb]) p hf).imp_right ?_
        rintro (⟨e, he, rfl⟩ | ⟨a, ha, rfl⟩)
        · exact .inl ⟨e, by simp [he], rfl⟩
        · rcases List.mem_cons.1 ha with rfl | ha
          · exact .inl ⟨(op.id, c op), by simp, rfl⟩
          · exact .inr ⟨a, ha, rfl⟩)
    refine ⟨s', ?_, by simpa using hs'⟩
    rw [List.foldlM_cons]
    simp only [h1]
    exact h2

/-! ## Dealing -/

/-- Dealing gives one virtual graph to each stage, in ascending order, all within the range, and each of the range is
given if there are enough stages. -/
theorem deal_eq (balance : Balance) {n total : Nat} (stages : List Stage) (current spent : Nat) (hc : current < n) :
    ∃ vs : List Nat, vs.length = stages.length ∧ vs.Pairwise (· ≤ ·) ∧ (∀ v ∈ vs, current ≤ v ∧ v < n) ∧
      (n ≤ current + stages.length → ∀ v, current ≤ v → v < n → v ∈ vs) ∧
      deal balance n total stages current spent =
        (stages.zip vs).flatMap fun (s, v) => s.ops.map fun e => (e.1, v) := by
  induction stages generalizing current spent with
  | nil => exact ⟨[], rfl, .nil, by simp, fun h => by simp at h; omega, rfl⟩
  | cons stage rest ih =>
    rw [deal]
    -- the next virtual graph, with enough stages left for those after it
    generalize hnext : (if 0 < n - (current + 1) ∧ (rest.length ≤ n - (current + 1) ∨
      balance.reaches (spent + stage.cost) total (current + 1) n) then current + 1 else current) = next
    have hbound : current ≤ next ∧ next < n := by
      split at hnext <;> omega
    have henough : n ≤ current + (rest.length + 1) → ∀ v, current < v → v < n → next ≤ v ∧ n ≤ next + rest.length := by
      intro h v hv hvn
      split at hnext
      · omega
      · rename_i hfull
        have hmore : n - (current + 1) < rest.length := by
          by_contra hless
          exact hfull ⟨by omega, .inl (by omega)⟩
        omega
    obtain ⟨vs, hlen, hasc, hrange, hall, heq⟩ := ih next (spent + stage.cost) hbound.2
    refine ⟨current :: vs, by simp [hlen], ?_, ?_, ?_, by simp [heq]⟩
    · exact List.pairwise_cons.2 ⟨fun v hv => hbound.1.trans (hrange v hv).1, hasc⟩
    · intro v hv
      rcases List.mem_cons.1 hv with rfl | hv
      · exact ⟨Nat.le_refl _, hc⟩
      · exact ⟨hbound.1.trans (hrange v hv).1, (hrange v hv).2⟩
    · intro h v hv hvn
      rcases Nat.eq_or_lt_of_le hv with rfl | hlt
      · simp
      · obtain ⟨hle, hleft⟩ := henough h v hlt hvn
        exact List.mem_cons_of_mem _ (hall hleft v hle hvn)

end Placement

end TensorGraph
